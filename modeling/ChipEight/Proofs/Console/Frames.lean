import ChipEight.Proofs.Console.Returns
import ChipEight.Proofs.Screen.Renderer

/-!
What becomes of the screen of a console with any number of callers. An instruction draws or clears
as it is carried out, and not at all if it faults; a load or a reset clears when it returns, whether
or not the program fits. So what callers see of the screen is what they see of it after these draws,
clears and looks alone.
-/

namespace ChipEight

/-- What the instruction does to the screen. -/
def Instruction.screenEvents (m : Machine) : Instruction → List Screen.Event
  | .clearScreen => [.clear]
  | .draw x y rows =>
      match m.memory.slice m.index.toNat rows.toNat with
      | .ok sprite => [.draw (m.register x) (m.register y) sprite]
      | .error _ => []
  | _ => []

namespace Machine

/-- What a step does to the screen. -/
def screenEvents (m : Machine) : List Screen.Event :=
  match m.next with
  | .ok i => i.screenEvents m
  | .error _ => []

variable {m : Machine} {d : Devices} {f : Fault}

theorem screenEvents_advance (m : Machine) (i : Instruction) :
    i.screenEvents m.advance = i.screenEvents m := by
  cases i <;> rfl

theorem screen_execute (m : Machine) (d : Devices) (i : Instruction) :
    (m.execute d i).2.screen = d.screen.after (i.screenEvents m) := by
  cases i with
  | draw x y rows =>
      simp only [execute, Instruction.screenEvents]
      cases m.memory.slice m.index.toNat rows.toNat <;> rfl
  | awaitKey x =>
      simp only [execute]
      cases d.feed.takeAnswer.1 <;> rfl
  | _ => rfl

theorem screen_step (m : Machine) (d : Devices) :
    (m.step d).2.screen = d.screen.after m.screenEvents := by
  cases hn : m.next with
  | error f =>
      rw [step_of_next_error hn, screenEvents, hn]
      rfl
  | ok i => rw [step_of_next hn, screen_execute, screenEvents_advance, screenEvents, hn]

theorem screenEvents_of_fault (h : (m.step d).1 = .error f) : m.screenEvents = [] := by
  cases hn : m.next with
  | error f => rw [screenEvents, hn]
  | ok i =>
      rw [step_of_next hn] at h
      rw [screenEvents, hn]
      cases i with
      | draw x y rows =>
          have hslice : m.advance.memory.slice m.advance.index.toNat rows.toNat =
              m.memory.slice m.index.toNat rows.toNat := rfl
          simp only [execute, hslice] at h
          simp only [Instruction.screenEvents]
          cases hs : m.memory.slice m.index.toNat rows.toNat with
          | ok sprite =>
              rw [hs] at h
              cases h
          | error f => rfl
      | clearScreen => cases h
      | _ => rfl

/-- A program gives no frames away. -/
theorem shown_screenEvents (s : Screen) (m : Machine) : s.shown m.screenEvents = [] := by
  cases hn : m.next with
  | error f =>
      rw [screenEvents, hn]
      rfl
  | ok i =>
      rw [screenEvents, hn]
      cases i with
      | draw x y rows =>
          simp only [Instruction.screenEvents]
          cases m.memory.slice m.index.toNat rows.toNat <;> rfl
      | _ => rfl

theorem screenEvents_of_awaitsKey (h : Loop.awaitsKey m) : m.screenEvents = [] := by
  obtain ⟨x, hx⟩ := Loop.exists_awaitKey h
  rw [screenEvents, hx]
  rfl

end Machine

namespace Loop

variable {l : Loop}

/-- What a turn does to the screen. -/
def screenEvents (l : Loop) (cancelled : Bool) : List Screen.Event :=
  if cancelled then [] else l.machine.screenEvents

theorem screenEvents_of_idle {cancelled : Bool}
    (hidle : cancelled = true ∨ awaitsKey l.machine = true) : l.screenEvents cancelled = [] := by
  rw [screenEvents]
  split
  · rfl
  · exact Machine.screenEvents_of_awaitsKey (hidle.resolve_left ‹_›)

theorem Leaves.screen {cancelled : Bool} {d d' : Devices} (h : l.Leaves cancelled d d') :
    d'.screen = d.screen.after (l.screenEvents cancelled) := by
  cases h with
  | idle hidle waiting answers =>
      rw [screenEvents_of_idle hidle]
      rfl
  | step hlooked =>
      rw [Machine.screen_step, screenEvents, hlooked]
      rfl

end Loop

namespace Console

variable {c : Console}

/-- What a turn of the loop does to the screen. -/
def screenEvents (c : Console) (cancelled : Bool) : List Screen.Event :=
  match c.loop with
  | some l => l.screenEvents cancelled
  | none => []

theorem Sane.screen_turn (h : c.Sane) (cancelled : Bool) :
    (c.turn cancelled).devices.screen = c.devices.screen.after (c.screenEvents cancelled) := by
  rw [devices_turn, screenEvents]
  cases hl : c.loop with
  | none => rfl
  | some l => exact ((h.parks l hl).leaves cancelled c.devices).screen

theorem shown_screenEvents (s : Screen) (c : Console) (cancelled : Bool) :
    s.shown (c.screenEvents cancelled) = [] := by
  rw [screenEvents]
  split
  · rw [Loop.screenEvents]
    split
    · rfl
    · exact Machine.shown_screenEvents s _
  · rfl

/-- What a call has done to the screen when it returns. -/
def Call.screenEvents : Call → List Screen.Event
  | .load _ | .reset => [.clear]
  | .takeFrame => [.take]
  | .display => [.snapshot]
  | .run | .halt | .wait | .press _ | .release _ | .tick | .dump => []

/-- The frame that a renderer is given with the reply. -/
def Reply.given : Reply → Option Frame
  | .frameIfChanged taken => taken
  | _ => none

theorem Reply.given_ofStart (result : Except Refusal Unit) : (ofStart result).given = none := by
  cases result <;> rfl

theorem Reply.given_ofKey (result : Except Fault Unit) : (ofKey result).given = none := by
  cases result <;> rfl

end Console

namespace Shared

open Console (Call Reply)

/-- What the call that returned, if one did, has done to the screen. -/
def eventsOf (returned : Option (Call × Reply)) : List Screen.Event :=
  returned.elim [] fun (call, _) => call.screenEvents

/-- What an act does to the screen. -/
def screenEvents (s : Shared) : Act → List Screen.Event
  | .turn looked => s.console.screenEvents (looked && s.cancel)
  | act => eventsOf (s.step act).1

/-- What a list of acts does to the screen, in order. -/
def trace (s : Shared) : List Act → List Screen.Event
  | [] => []
  | act :: rest => s.screenEvents act ++ (s.step act).2.trace rest

def framesOf (returned : Option (Call × Reply)) : List Frame :=
  (returned.bind fun (_, reply) => reply.given).toList

/-- The frames that renderers are given, in order. -/
def shown (s : Shared) : List Act → List Frame
  | [] => []
  | act :: rest => framesOf (s.step act).1 ++ (s.step act).2.shown rest

/-- The events are all that has happened to the screen, and all that renderers were given of it. -/
structure Records (events : List Screen.Event) (before after : Console)
    (returned : Option (Call × Reply)) : Prop where
  sane : after.Sane
  screen : after.devices.screen = before.devices.screen.after events
  frames : framesOf returned = before.devices.screen.shown events

variable {s : Shared} {act : Act} {acts : List Act}

theorem Served.records {c c' : Console} {returned : Option (Call × Reply)}
    (hserved : Served c returned c') (h : c.Sane) : Records (eventsOf returned) c c' returned := by
  have hsane := hserved.sane h
  cases hserved with
  | blocked => exact ⟨hsane, rfl, rfl⟩
  | returned call =>
      cases call with
      | load program =>
          have hgiven := Reply.given_ofStart (c.install program).1
          exact ⟨hsane, rfl, congrArg Option.toList hgiven⟩
      | run =>
          have hgiven := Reply.given_ofStart c.start.1
          exact ⟨hsane, congrArg Devices.screen c.devices_start, congrArg Option.toList hgiven⟩
      | press byte =>
          have hgiven := Reply.given_ofKey (c.press byte).1
          exact ⟨hsane, rfl, congrArg Option.toList hgiven⟩
      | release byte =>
          have hgiven := Reply.given_ofKey (c.release byte).1
          exact ⟨hsane, rfl, congrArg Option.toList hgiven⟩
      | takeFrame => exact ⟨hsane, rfl, (List.append_nil _).symm⟩
      | _ => exact ⟨hsane, rfl, rfl⟩

theorem records_turn (h : s.console.Sane) (looked : Bool) :
    Records (s.screenEvents (.turn looked)) s.console (s.turn looked).console none :=
  ⟨h.turn _, h.screen_turn _, (Console.shown_screenEvents _ _ _).symm⟩

theorem records_step (h : s.console.Sane) (act : Act) :
    Records (s.screenEvents act) s.console (s.step act).2.console (s.step act).1 := by
  cases act with
  | call call => exact (served_call s call).records h
  | wake k => exact (served_wake s k).records h
  | turn looked => exact records_turn h looked
  | supply random => exact ⟨h.of_eq rfl rfl, rfl, rfl⟩

theorem records_after (h : s.console.Sane) (acts : List Act) :
    (s.after acts).console.devices.screen = s.console.devices.screen.after (s.trace acts) ∧
      s.shown acts = s.console.devices.screen.shown (s.trace acts) := by
  induction acts generalizing s with
  | nil => exact ⟨rfl, rfl⟩
  | cons act rest ih =>
      have hact := records_step h act
      obtain ⟨hscreen, hshown⟩ := ih hact.sane
      rw [trace, Screen.after_append, Screen.shown_append, ← hact.screen, ← hact.frames, ← hshown]
      exact ⟨hscreen, rfl⟩

theorem upToDate_after (past : List Act) :
    (new.after past).console.devices.screen.UpToDate (Screen.painted (new.trace past))
      (new.shown past) := by
  have hsane : new.console.Sane := Console.sane_new
  obtain ⟨hscreen, hshown⟩ := records_after hsane past
  rw [hscreen, hshown]
  exact Screen.upToDate_after (new.trace past)

/-- A renderer that asks for the frame where it has changed misses nothing, be it alone with a
screen, or one of any number of callers of a console among the turns of the loop. It is given the
frame as it is exactly if there was a draw or a clear since a frame was last asked for, and whenever
the screen is not marked as changed, its frame is the last one given. An instruction that faults
draws nothing. -/
theorem renderer_misses_nothing :
    (∀ past : List Screen.Event,
        (Screen.blank.after past).UpToDate (Screen.painted past) (Screen.blank.shown past)) ∧
      (∀ past : List Act,
        let s := new.after past
        let screen := s.console.devices.screen
        let painted := Screen.painted (new.trace past)
        screen.UpToDate painted (new.shown past) ∧
          (s.step (.call .takeFrame)).1 =
            some (.takeFrame, .frameIfChanged (if painted then some screen.frame else none)) ∧
          (s.step (.call .display)).1 = some (.display, .frame screen.frame)) ∧
      ∀ (m : Machine) (d : Devices) (f : Fault), (m.step d).1 = .error f →
        m.screenEvents = [] ∧ (m.step d).2.screen = d.screen := by
  refine ⟨Screen.upToDate_after, ?_, ?_⟩
  · intro past s screen painted
    have hcurrent : screen.UpToDate painted (new.shown past) := upToDate_after past
    have hreply := congrArg (fun taken => some (Call.takeFrame, Reply.frameIfChanged taken))
      hcurrent.take
    exact ⟨hcurrent, hreply, rfl⟩
  · intro m d f h
    have hnone := Machine.screenEvents_of_fault h
    refine ⟨hnone, ?_⟩
    rw [Machine.screen_step, hnone]
    rfl

/-- A glyph that is drawn after a load was seen, and a draw that leaves memory. -/
theorem renderer_misses_nothing_of_glyph :
    let past : List Act := [.call (.load [0xD0, 0x05]), .call .takeFrame, .call .run, .turn false]
    let s := new.after past
    let m := { (Machine.load [0xD0, 0x02]).2 with index := 0xFFF }
    (s.step (.call .takeFrame)).1 =
        some (.takeFrame, .frameIfChanged (some s.console.devices.screen.frame)) ∧
      (m.step .fresh).1 = .error (.memoryOutOfBounds 0xFFF) ∧ m.screenEvents = [] := by
  intro past s m
  have hpainted : Screen.painted (new.trace past) = true := by decide +kernel
  have hfault : (m.step .fresh).1 = .error (.memoryOutOfBounds 0xFFF) := by decide +kernel
  obtain ⟨_, hconsole, hfaults⟩ := renderer_misses_nothing
  obtain ⟨_, htake, _⟩ := hconsole past
  have hs : new.after past = s := rfl
  simp only [hpainted, if_true, hs] at htake
  exact ⟨htake, hfault, (hfaults m .fresh _ hfault).1⟩

end Shared
end ChipEight
