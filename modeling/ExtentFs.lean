import ExtentFs.Effects.Lookups
import ExtentFs.Effects.Walks
import ExtentFs.Effects.Write
import ExtentFs.Guarantees.Addresses
import ExtentFs.Guarantees.Allocation
import ExtentFs.Guarantees.Attributes
import ExtentFs.Guarantees.Command
import ExtentFs.Guarantees.Contents
import ExtentFs.Guarantees.Entries
import ExtentFs.Guarantees.Errno
import ExtentFs.Guarantees.Extension
import ExtentFs.Guarantees.Files
import ExtentFs.Guarantees.FirstGrowth
import ExtentFs.Guarantees.Formatting
import ExtentFs.Guarantees.FreeBlocks
import ExtentFs.Guarantees.Inodes
import ExtentFs.Guarantees.Isolation
import ExtentFs.Guarantees.Layout
import ExtentFs.Guarantees.Leaks
import ExtentFs.Guarantees.Links
import ExtentFs.Guarantees.Listings
import ExtentFs.Guarantees.LongNames
import ExtentFs.Guarantees.Offsets
import ExtentFs.Guarantees.Outcomes
import ExtentFs.Guarantees.Ownership
import ExtentFs.Guarantees.Paths
import ExtentFs.Guarantees.Progress
import ExtentFs.Guarantees.Ranges
import ExtentFs.Guarantees.Readback
import ExtentFs.Guarantees.Reads
import ExtentFs.Guarantees.Remount
import ExtentFs.Guarantees.Resolution
import ExtentFs.Guarantees.Search
import ExtentFs.Guarantees.Sessions
import ExtentFs.Guarantees.Sizes
import ExtentFs.Guarantees.Slots
import ExtentFs.Guarantees.Times
import ExtentFs.Guarantees.Tokens
import ExtentFs.Guarantees.Unlinks
import ExtentFs.Guarantees.Zeroing
