import Akio.Loop.Keeps

/-!
# A program with some of its callbacks

A run of a program that lets only some callbacks return is a run of the program itself.
-/

namespace Akio.Loop

open Event Timer

variable {C D P K R U A : Type} {b : Poller C D P K R} {prog prog' : Program C D K U A} {loop loop' : FullLoop C D P}
  {u u' : U} {log log' : List (Entry C D)} {can : Round A R → Prop}

/-- The callbacks of events return where `ok` holds of what they are called with. -/
def Program.only (prog : Program C D K U A) (ok : C → Int → D → A → U → Bool) : Program C D K U A where
  event_callback cb fd data answer u :=
    if ok cb fd data answer u then prog.event_callback cb fd data answer u else .running
  timer_callback := prog.timer_callback

/-- What the callbacks of one program return, those of the other return too. -/
structure Program.Within (prog' prog : Program C D K U A) : Prop where
  event : ∀ {cb fd data answer u r}, prog'.event_callback cb fd data answer u = .done r →
    prog.event_callback cb fd data answer u = .done r
  timer : ∀ {cb data answer u r}, prog'.timer_callback cb data answer u = .done r →
    prog.timer_callback cb data answer u = .done r

theorem Program.only_within (prog : Program C D K U A) (ok : C → Int → D → A → U → Bool) :
    (prog.only ok).Within prog where
  event hdone := by
    unfold Program.only at hdone
    dsimp only at hdone
    split_ifs at hdone
    exact hdone
  timer hdone := hdone

theorem Program.only_true (prog : Program C D K U A) : prog.only (fun _ _ _ _ _ => true) = prog := rfl

theorem invoke_within {active : ev_active} {d : Direction} {answer : A} (hw : prog'.Within prog)
    (hdone : invoke b prog' answer loop u active d = .done (loop', u', log)) :
    invoke b prog answer loop u active d = .done (loop', u', log) := by
  obtain ⟨ev, hget, hdone⟩ := Outcome.bind_eq_done.mp hdone
  unfold invoke
  rw [hget, Outcome.done_bind]
  split_ifs at hdone ⊢
  · obtain ⟨cb, hslot, hdone⟩ := Outcome.bind_eq_done.mp hdone
    obtain ⟨data, hdata, hdone⟩ := Outcome.bind_eq_done.mp hdone
    obtain ⟨⟨u₁, effects⟩, hcall, hdone⟩ := Outcome.bind_eq_done.mp hdone
    rw [hslot, Outcome.done_bind, hdata, Outcome.done_bind, hw.event hcall]
    exact hdone
  · exact hdone

theorem dispatch_within {answers : Nat → Direction → A} {actives : List ev_active} {j : Nat} (hw : prog'.Within prog)
    (hdone : dispatch b prog' answers loop u j actives = .done (loop', u', log)) :
    dispatch b prog answers loop u j actives = .done (loop', u', log) := by
  induction actives generalizing loop u j log with
  | nil => exact hdone
  | cons active actives ih =>
    obtain ⟨⟨loop₁, u₁, log₁⟩, hread, hdone⟩ := Outcome.bind_eq_done.mp hdone
    obtain ⟨⟨loop₂, u₂, log₂⟩, hwrite, hdone⟩ := Outcome.bind_eq_done.mp hdone
    obtain ⟨⟨loop₃, u₃, log₃⟩, hrest, hpure⟩ := Outcome.bind_eq_done.mp hdone
    unfold dispatch
    rw [invoke_within hw hread, Outcome.done_bind]
    dsimp only
    rw [invoke_within hw hwrite, Outcome.done_bind]
    dsimp only
    cases hpure
    rw [ih hrest]
    rfl

theorem fire_within {te : Nat} {tick : Tick A} {one : Fired} (hw : prog'.Within prog)
    (hdone : fire b prog' loop u te tick = .done (loop', u', one, log)) :
    fire b prog loop u te tick = .done (loop', u', one, log) := by
  obtain ⟨n, hread, hdone⟩ := Outcome.bind_eq_done.mp hdone
  obtain ⟨⟨u₁, effects, retval⟩, hcall, hdone⟩ := Outcome.bind_eq_done.mp hdone
  unfold fire
  rw [hread, Outcome.done_bind, hw.timer hcall]
  exact hdone

theorem processLoop_within {ticks : List (Tick A)} {processed processed' : Int} {fired fired' : List Fired}
    (hw : prog'.Within prog)
    (hdone : processLoop b prog' loop u processed fired log ticks = .done (loop', u', processed', fired', log')) :
    processLoop b prog loop u processed fired log ticks = .done (loop', u', processed', fired', log') := by
  induction ticks generalizing loop u processed fired log with
  | nil => exact hdone
  | cons tick ticks ih =>
    obtain ⟨te, htop, hdone⟩ := Outcome.bind_eq_done.mp hdone
    unfold processLoop
    rw [htop, Outcome.done_bind]
    cases te with
    | none => exact hdone
    | some te =>
      obtain ⟨n, hread, hdone⟩ := Outcome.bind_eq_done.mp hdone
      dsimp only
      rw [hread, Outcome.done_bind]
      split_ifs at hdone ⊢
      · exact hdone
      · obtain ⟨⟨loop₁, u₁, one, log₁⟩, hfire, hdone⟩ := Outcome.bind_eq_done.mp hdone
        rw [fire_within hw hfire]
        exact ih hdone

theorem process_events_within {round : Round A R} {pass : Pass C D} (hw : prog'.Within prog)
    (hdone : process_events b prog' round loop u = .done (loop', u', pass)) :
    process_events b prog round loop u = .done (loop', u', pass) := by
  obtain ⟨timeout, htimeout, hdone⟩ := Outcome.bind_eq_done.mp hdone
  obtain ⟨⟨poller, actives⟩, hpoll, hdone⟩ := Outcome.bind_eq_done.mp hdone
  obtain ⟨⟨loop₁, u₁, log⟩, hdispatch, hdone⟩ := Outcome.bind_eq_done.mp hdone
  obtain ⟨⟨loop₂, u₂, processed, fired, log'⟩, hloop, hpure⟩ := Outcome.bind_eq_done.mp hdone
  unfold process_events
  rw [htimeout, Outcome.done_bind, hpoll, Outcome.done_bind]
  dsimp only
  rw [dispatch_within hw hdispatch, Outcome.done_bind]
  dsimp only
  rw [processLoop_within hw hloop]
  exact hpure

theorem Served.within {s s' : FullLoop C D P × U} {round : Round A R} (hw : prog'.Within prog)
    (hserved : Served b prog' can s round s') : Served b prog can s round s' := by
  obtain ⟨hcan, pass, hdone⟩ := hserved
  exact ⟨hcan, pass, process_events_within hw hdone⟩

end Akio.Loop
