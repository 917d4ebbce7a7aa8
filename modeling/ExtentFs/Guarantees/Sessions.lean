import ExtentFs.Guarantees.Files
import ExtentFs.Guarantees.Remount

namespace ExtentFs

open Base

/-- The request that a session answers in a step. -/
def SessionEvent.served : SessionEvent → Option Exchange
  | .exchange x => some x
  | .mount | .unmount => none

variable {file : ImageFile} {events : List SessionEvent} {s : Session}

/-- Files outlive the sessions: however often an image is mounted and unmounted between the requests, all answers
    are those of one specification, and the next mount shows what it holds. -/
theorem sessions_refine_files (formatted : Formatted file)
    (run : (sessions file).Trace (Session.guarded Regular) events s) :
    ∃ v, specification.Trace (fun _ _ => True) (events.filterMap SessionEvent.served) v ∧
      s.Holds fun fs => fs.Displays v := by
  refine run.simulate SessionEvent.served (fun s v => s.Holds fun fs => fs.Displays v) ?_ ?_
  · rintro s rfl
    obtain ⟨fs, init, start⟩ := formatted.mounts
    obtain ⟨v, first, displays⟩ := start.displays
    exact ⟨v, first, fs, init, displays⟩
  · intro s event s' v reached displays allowed step
    have backed := backed_of_session formatted reached
    cases step with
    | mount init =>
      obtain ⟨fs, same, shown⟩ := displays
      rw [init] at same
      cases same
      exact .inl ⟨rfl, shown⟩
    | @exchange mapping fs fs' x served fits =>
      obtain ⟨v', answered, shown⟩ := follows_specification backed.1 displays allowed served
      exact .inr ⟨x, v', rfl, answered, shown⟩
    | unmount => exact .inl ⟨rfl, _, mount_after_unmount backed.1 backed.2 _, displays⟩

/-- A directory is made, the image unmounted and mounted again, and the directory listed. -/
theorem sessions_refine_files_run : ∃ file mapping fs v, ∃ events : List SessionEvent,
    Formatted file ∧ events.length = 5 ∧
    specification.Trace (fun _ _ => True) (events.filterMap SessionEvent.served) v ∧
      (Session.mounted mapping fs).Holds fun fs => fs.Displays v := by
  obtain ⟨file, formatted, init⟩ := initial_file device_initial
  have serves : ∃ out, Request.serve quiet 10 device (.change (.mkdir pathB 0)) = .ok out ∧ out.1.InRange ∧
      Regular device ⟨.change (.mkdir pathB 0), quiet, out.2⟩ ∧
      ∃ out', Request.serve quiet 10 out.1 (.readdir pathB) = .ok out' ∧ out'.1.InRange ∧
        Regular out.1 ⟨.readdir pathB, quiet, out'.2⟩ := by
    decide +kernel
  obtain ⟨⟨fs, reply⟩, served, fits, regular, ⟨fs', reply'⟩, served', fits', regular'⟩ := serves
  have makes : driver.Step device ⟨.change (.mkdir pathB 0), quiet, reply⟩ fs := ⟨10, served⟩
  have lists : driver.Step fs ⟨.readdir pathB, quiet, reply'⟩ fs' := ⟨10, served'⟩
  have reached : driver.Reaches Regular fs := .step (.initial device_initial) regular makes
  have again : a1fsInit (a1fsDestroy file.bytes fs) = some fs := mount_after_unmount reached fits _
  have allowed : Session.guarded Regular (.mounted file.bytes device)
      (.exchange ⟨.change (.mkdir pathB 0), quiet, reply⟩) := regular
  have allowed' : Session.guarded Regular (.mounted (a1fsDestroy file.bytes fs).bytes fs)
      (.exchange ⟨.readdir pathB, quiet, reply'⟩) := regular'
  have allowed'' : Session.guarded Regular (.mounted file.bytes fs) .unmount := trivial
  have mounted : (sessions file).Trace (Session.guarded Regular) _ (.mounted file.bytes device) :=
    .step (.initial rfl) trivial (.mount init)
  have unmounted : (sessions file).Trace (Session.guarded Regular) _ (.unmounted (a1fsDestroy file.bytes fs)) :=
    .step (.step mounted allowed (.exchange makes fits)) allowed'' .unmount
  have run : (sessions file).Trace (Session.guarded Regular) _ (.mounted (a1fsDestroy file.bytes fs).bytes fs') :=
    .step (.step unmounted trivial (.mount again)) allowed' (.exchange lists fits')
  obtain ⟨v, answered, displays⟩ := sessions_refine_files formatted run
  exact ⟨file, _, fs', v, _, formatted, rfl, answered, displays⟩

end ExtentFs
