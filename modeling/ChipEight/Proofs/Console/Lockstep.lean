import ChipEight.Proofs.Console.Loading
import ChipEight.Proofs.Console.Pauses
import ChipEight.Proofs.Machine.Unattended

/-!
A loop in step with a run of single steps. While nobody presses a key, and on the way to a trap,
each turn of the loop is one step of the run, whatever else comes between the turns; and after the
trap nothing that comes changes where either of them stands.
-/

namespace ChipEight.Console

open Devices (Touch)
open Machine (LookAlike Standing)

variable {c : Console} {m next : Machine} {d d' : Devices} {f : Fault} {t : Trap}

/-- The console is at work with the machine of the run, or at rest with it after the same trap. -/
structure StandsAt (c : Console) (s : Standing) : Prop where
  alike : LookAlike c.devices s.devices
  place : match s.trap with
    | none => c.AtWork (.ofMachine s.machine)
    | some t => c.AtRest s.machine ∧ c.trap = some t

/-- Nobody presses a key. -/
def Keyless (beats : List Beat) : Prop := ∀ byte, .touch (.press byte) ∉ beats

theorem Keyless.tail {b : Beat} {rest : List Beat} (h : Keyless (b :: rest)) : Keyless rest :=
  fun byte hmem => h byte (List.mem_cons_of_mem b hmem)

theorem Keyless.ne_press {event : Touch} {rest : List Beat}
    (h : Keyless (.touch event :: rest)) (byte : UInt8) : event ≠ .press byte := by
  rintro rfl
  exact h byte List.mem_cons_self

theorem keyless_append {first later : List Beat} (h : Keyless first) (h' : Keyless later) :
    Keyless (first ++ later) :=
  fun byte hmem => (List.mem_append.mp hmem).elim (h byte) (h' byte)

theorem AtWork.turn_of_ok (h : c.AtWork (.ofMachine m)) (hw : ¬ Loop.awaitsKey m)
    (hs : m.step c.devices = (.ok next, d')) :
    (c.turn false).AtWork (.ofMachine next) ∧ (c.turn false).devices = d' := by
  have hnext : Loop.step (.ofMachine m) c.devices = (.goOn (.ofMachine next), d') := by
    simp only [Loop.step, Loop.ofMachine, hs]
  have hturn := (Loop.turn_of_unparked (l := .ofMachine m) rfl c.devices).trans (if_neg hw)
  have hc := turn_of_goOn h.loop (hturn.trans hnext)
  refine ⟨?_, congrArg Console.devices hc⟩
  rcases h.turn_of_step rfl hw with ⟨m', hwork⟩ | hrest
  · have hloop := hwork.loop.symm.trans (congrArg Console.loop hc)
    rwa [Option.some.inj hloop] at hwork
  · cases hrest.loop.symm.trans (congrArg Console.loop hc)

theorem AtWork.turn_of_error (h : c.AtWork (.ofMachine m)) (hs : (m.step d).1 = .error f) :
    (c.turn false).AtRest m ∧ (c.turn false).trap = some ⟨m.pc, f⟩ ∧
      (c.turn false).devices = c.devices := by
  have hsame := Machine.step_eq_of_error hs
  rw [h.turn_of_fault hsame]
  refine ⟨h.handBack rfl m _ ?_, rfl, rfl⟩
  intro t ht
  obtain rfl := Option.some.inj ht
  exact ⟨rfl, hsame⟩

theorem not_awaitsKey_of_trap (hd : d.feed.answers = []) {n : Nat}
    (ht : (m.run d (.replicate n id)).trap = some t) : ¬ Loop.awaitsKey m := by
  intro hw
  obtain ⟨x, hx⟩ := Loop.exists_awaitKey hw
  cases (Machine.not_trap_of_awaitKey hx hd n).symm.trans ht

theorem StandsAt.turn_of_ok (h : c.StandsAt ⟨m, d, none⟩) (hw : ¬ Loop.awaitsKey m)
    {i : Instruction} (hn : m.next = .ok i) (hi : ¬ i.unsettles)
    (hs : m.step d = (.ok next, d')) : (c.turn false).StandsAt ⟨next, d', none⟩ := by
  have hwork : c.AtWork (.ofMachine m) := h.place
  obtain ⟨devices, hs', halike⟩ := h.alike.step hn hi hs
  obtain ⟨hnext, hdevices⟩ := hwork.turn_of_ok hw hs'
  exact ⟨hdevices ▸ halike, hnext⟩

theorem StandsAt.turn_of_error (h : c.StandsAt ⟨m, d, none⟩) (hs : (m.step d).1 = .error f) :
    (c.turn false).StandsAt ⟨m, d, some ⟨m.pc, f⟩⟩ := by
  have hwork : c.AtWork (.ofMachine m) := h.place
  obtain ⟨hrest, htrap, hdevices⟩ := hwork.turn_of_error hs
  exact ⟨hdevices ▸ h.alike, hrest, htrap⟩

theorem StandsAt.touch {s : Standing} (h : c.StandsAt s) {event : Touch}
    (hkey : ∀ byte, event ≠ .press byte) : (c.touch event).StandsAt s := by
  refine ⟨h.alike.touch hkey, ?_⟩
  have hplace := h.place
  cases ht : s.trap with
  | none =>
      simp only [ht] at hplace ⊢
      exact hplace.touch event
  | some t =>
      simp only [ht] at hplace ⊢
      exact ⟨hplace.1.touch event, hplace.2⟩

theorem StandsAt.after_of_trap {s : Standing} (h : c.StandsAt s) (ht : s.trap = some t)
    {beats : List Beat} (hkeys : Keyless beats) : (c.after (beats.map Beat.event)).StandsAt s := by
  induction beats generalizing c with
  | nil => exact h
  | cons b rest ih =>
      have hb : (c.handle b.event).StandsAt s := by
        cases b with
        | turn =>
            have hplace := h.place
            simp only [ht] at hplace
            rw [Beat.event, handle, turn_of_idle hplace.1.loop]
            exact h
        | touch event =>
            rw [Beat.event, handle_touchEvent]
            exact h.touch hkeys.ne_press
      exact ih hb hkeys.tail

/-- On the way to a trap that nothing unsettles the loop takes a step of the run for each turn. -/
theorem StandsAt.after (h : c.StandsAt ⟨m, d, none⟩) {n : Nat}
    (ht : (m.run d (.replicate n id)).trap = some t)
    (hsettled : ∀ i ∈ m.completes d (.replicate n id), ¬ i.unsettles) {beats : List Beat}
    (hkeys : Keyless beats) :
    (c.after (beats.map Beat.event)).StandsAt (m.run d (.replicate (beats.count .turn) id)) := by
  induction beats generalizing c m d n with
  | nil => exact h
  | cons b rest ih =>
      cases b with
      | touch event =>
          have hne : Beat.touch event ≠ .turn := nofun
          have htouch : (c.handle (touchEvent event)).StandsAt ⟨m, d, none⟩ := by
            rw [handle_touchEvent]
            exact h.touch hkeys.ne_press
          rw [List.count_cons_of_ne hne]
          exact ih htouch ht hsettled hkeys.tail
      | turn =>
          have hw := not_awaitsKey_of_trap h.alike.right.answers ht
          cases n with
          | zero => cases ht
          | succ n =>
              rw [List.count_cons_self, List.replicate_succ]
              rw [List.replicate_succ] at ht hsettled
              cases hs : m.step d with
              | mk outcome devices =>
                  cases outcome with
                  | error f =>
                      have hfault := congrArg Prod.fst hs
                      obtain rfl : devices = d :=
                        (congrArg Prod.snd hs).symm.trans (Machine.devices_of_step_error hfault)
                      simp only [Machine.run, id_eq, hs]
                      exact (h.turn_of_error hfault).after_of_trap rfl hkeys.tail
                  | ok next =>
                      obtain ⟨i, hn, _⟩ := Machine.exists_execute_of_step hs
                      rw [Machine.completes_of_step hn hs] at hsettled
                      obtain ⟨hi, hlater⟩ := List.forall_mem_cons.mp hsettled
                      simp only [Machine.run, id_eq, hs] at ht ⊢
                      exact ih (h.turn_of_ok hw hn hi hs) ht hlater hkeys.tail

theorem StandsAt.running_iff {s : Standing} (h : c.StandsAt s) :
    c.running = true ↔ s.trap = none := by
  have hplace := h.place
  cases ht : s.trap with
  | none =>
      simp only [ht] at hplace
      simp only [hplace.running]
  | some t =>
      simp only [ht] at hplace
      simp only [hplace.1.running, Bool.false_eq_true, reduceCtorEq]

/-- A program that is started on a new console stands where it stands on fresh devices. -/
theorem standsAt_start {program : List UInt8} (hfits : program.length ≤ maxProgramSize) :
    (new.load program).2.start.2.StandsAt ⟨(Machine.load program).2, .fresh, none⟩ := by
  have horderly : new.Orderly := orderly_new
  have hload := congrArg Prod.snd (horderly.load_eq program)
  obtain ⟨m, hstop⟩ := horderly.stop
  have hrest : (new.load program).2.AtRest (Machine.load program).2 := hstop.install program
  have hloaded : (new.load program).2.loaded = true := by
    rw [hload, Machine.load_of_fits hfits]
    rfl
  refine ⟨⟨?_, ⟨rfl, rfl, rfl⟩, ?_⟩, hrest.work_of_start hloaded⟩
  · rw [hrest.start_of_loaded hloaded, hload]
    exact ⟨rfl, rfl, rfl⟩
  · rw [hrest.start_of_loaded hloaded, hload]
    rfl

end ChipEight.Console
