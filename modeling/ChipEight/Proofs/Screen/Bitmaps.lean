import ChipEight.Proofs.Console.Frames
import ChipEight.Proofs.Machine.Inputs
import ChipEight.Proofs.Screen.Layers

/-!
Which frames there can be, and their text. Nothing but draws and clears reaches the cells, and they
leave each of them lit or dark. The text of any frame has the size of the screen and tells the lit
cells from all others; of a frame whose cells are lit or dark it tells everything.
-/

namespace ChipEight

namespace Cells

variable {α : Type} {n k : Nat}

/-- The list of a vector, entry by entry. -/
theorem toList_eq_ofFn (entries : Vector α n) :
    entries.toList = List.ofFn entries.get := by
  rw [← Vector.toList_ofFn]
  exact congrArg Vector.toList Vector.ofFn_getElem.symm

theorem get_get_ofFn (f : Fin n → Fin k → α) (r : Fin n) (c : Fin k) :
    ((Vector.ofFn fun r => Vector.ofFn fun c => f r c).get r).get c = f r c := by
  have hrow (row : Fin k → α) : (Vector.ofFn row).get c = row c := Vector.getElem_ofFn c.isLt
  have houter : (Vector.ofFn fun r => Vector.ofFn fun c => f r c).get r = .ofFn fun c => f r c :=
    Vector.getElem_ofFn r.isLt
  rw [houter, hrow]

end Cells

namespace Frame

/-- How a cell looks. -/
def mark (cell : UInt8) : Char := if cell = 1 then '#' else '.'

/-- The frame that a picture shows: a cell is lit where there is a `#`. -/
def ofText (text : String) : Frame :=
  let lines := text.toList.splitOn '\n'
  .ofFn fun r => .ofFn fun c => if lines[r.val]?.bind (·[c.val]?) = some '#' then 1 else 0

variable {frame f g : Frame}

theorem Bitmap.draw (h : frame.Bitmap) (x y : Nat) (sprite : List UInt8) :
    (frame.draw x y sprite).1.Bitmap := by
  intro r c
  rw [cell_draw, Sprite.bit]
  rcases h r c with hdark | hlit
  · rw [hdark, UInt8.zero_xor]
    split
    · exact .inr rfl
    · exact .inl rfl
  · rw [hlit]
    split
    · exact .inl rfl
    · exact .inr rfl

/-! The text. -/

theorem mark_ne_newline (cell : UInt8) : mark cell ≠ '\n' := by
  rw [mark]
  split <;> decide

theorem mark_eq_lit_iff {cell : UInt8} : mark cell = '#' ↔ cell = 1 := by
  rw [mark]
  split
  · exact iff_of_true rfl ‹_›
  · exact iff_of_false (by decide) ‹_›

theorem lines_eq (frame : Frame) :
    frame.lines = List.ofFn fun r => List.ofFn fun c => mark (frame.cell r c) := by
  have hrow (row : Row) : row.text = List.ofFn fun c => mark (row.get c) := by
    rw [Row.text, Cells.toList_eq_ofFn, List.map_ofFn]
    rfl
  rw [lines, Cells.toList_eq_ofFn, List.map_ofFn]
  exact congrArg List.ofFn (funext fun r => hrow (frame.get r))

theorem splitOn_text (frame : Frame) : frame.text.toList.splitOn '\n' = frame.lines := by
  rw [text, String.toList_ofList]
  apply List.splitOn_intercalate
  · intro line hline
    obtain ⟨row, _, rfl⟩ := List.mem_map.mp hline
    intro hmem
    obtain ⟨cell, _, hcell⟩ := List.mem_map.mp hmem
    exact mark_ne_newline cell hcell
  · intro hnil
    have hlength := frame.length_lines
    rw [hnil] at hlength
    cases hlength

theorem getLast_text (frame : Frame) : frame.text.toList.getLast? ≠ some '\n' := by
  intro hlast
  obtain ⟨before, hbefore⟩ := List.getLast?_eq_some_iff.mp hlast
  have hempty : [] ∈ frame.lines := by
    rw [← splitOn_text, hbefore, List.splitOn_append_cons_self]
    exact List.mem_append_right _ (List.mem_singleton_self [])
  have hlength := length_of_mem_lines hempty
  cases hlength

/-- A frame that is read back has lit cells where it had them, and dark cells elsewhere. -/
theorem cell_ofText_text (frame : Frame) (r : Fin screenHeight) (c : Fin screenWidth) :
    (ofText frame.text).cell r c = if frame.cell r c = 1 then 1 else 0 := by
  have hline : frame.lines[r.val]? = some (List.ofFn fun c => mark (frame.cell r c)) := by
    rw [lines_eq, List.getElem?_ofFn, dif_pos r.isLt]
  have hmark : (frame.lines[r.val]?.bind (·[c.val]?)) = some (mark (frame.cell r c)) := by
    rw [hline, Option.bind_some, List.getElem?_ofFn, dif_pos c.isLt]
  have hcell : (ofText frame.text).cell r c =
      if (frame.lines[r.val]?.bind (·[c.val]?)) = some '#' then 1 else 0 := by
    rw [ofText, splitOn_text]
    exact Cells.get_get_ofFn _ r c
  rw [hcell, hmark]
  exact if_congr (Option.some_inj.trans mark_eq_lit_iff) rfl rfl

theorem ofText_text_iff : ofText frame.text = frame ↔ frame.Bitmap := by
  constructor
  · intro hread r c
    rw [← hread, cell_ofText_text]
    split
    · exact .inr rfl
    · exact .inl rfl
  · intro h
    apply ext_cells
    intro r c
    rw [cell_ofText_text]
    rcases h r c with hdark | hlit
    · rw [hdark]
      rfl
    · rw [hlit]
      rfl

theorem text_inj (hf : f.Bitmap) (hg : g.Bitmap) : f.text = g.text ↔ f = g := by
  refine ⟨fun htext => ?_, congrArg text⟩
  rw [← ofText_text_iff.mpr hf, htext, ofText_text_iff.mpr hg]

end Frame

theorem Screen.bitmap_after {s : Screen} (h : s.frame.Bitmap) (events : List Screen.Event) :
    (s.after events).frame.Bitmap := by
  induction events generalizing s with
  | nil => exact h
  | cons event rest ih =>
      apply ih
      cases event with
      | draw x y sprite => exact h.draw x.toNat y.toNat sprite
      | clear => exact Frame.bitmap_blank
      | snapshot | take => exact h

namespace Machine

variable {m : Machine} {d : Devices}

theorem bitmap_step (h : d.screen.frame.Bitmap) (m : Machine) :
    (m.step d).2.screen.frame.Bitmap := by
  rw [screen_step]
  exact Screen.bitmap_after h m.screenEvents

theorem bitmap_run {acts : Schedule}
    (hacts : ∀ act ∈ acts, ∀ d : Devices,
      d.screen.frame.Bitmap → (act d).screen.frame.Bitmap)
    (h : d.screen.frame.Bitmap) : (m.run d acts).devices.screen.frame.Bitmap := by
  induction acts generalizing m d with
  | nil => exact h
  | cons act rest ih =>
      obtain ⟨hact, hrest⟩ := List.forall_mem_cons.mp hacts
      have hstep := bitmap_step (hact d h) m
      rw [run]
      split
      · rename_i hs
        rw [hs] at hstep
        exact ih hrest hstep
      · rename_i hs
        rw [hs] at hstep
        exact hstep

end Machine

theorem Shared.bitmap_after (past : List Shared.Act) :
    (Shared.new.after past).console.devices.screen.frame.Bitmap := by
  rw [(Shared.records_after Console.sane_new past).1]
  exact Screen.bitmap_after Frame.bitmap_blank (Shared.new.trace past)

namespace Frame

/-- Every cell of a screen is lit or dark, after any draws, clears and looks on a new screen, after
any run of any program on new devices, whatever is done to them between the steps that leaves a
frame so, and on a console after any calls and turns. The text of any frame is its 32 lines of 64
characters with line feeds between them and none at the end, a `#` exactly where a cell is lit. So a
frame can be read back from its text exactly if all its cells are lit or dark, and of such frames no
two have the same text. -/
theorem screens_are_read_back_from_text :
    (∀ events : List Screen.Event, (Screen.blank.after events).frame.Bitmap) ∧
      (∀ (m : Machine) (acts : Machine.Schedule),
        (∀ act ∈ acts, ∀ d : Devices,
          d.screen.frame.Bitmap → (act d).screen.frame.Bitmap) →
        (m.run .fresh acts).devices.screen.frame.Bitmap) ∧
      (∀ past : List Shared.Act,
        (Shared.new.after past).console.devices.screen.frame.Bitmap) ∧
      (∀ frame : Frame,
        (frame.text.toList.splitOn '\n' =
            List.ofFn fun r : Fin 32 => List.ofFn fun c : Fin 64 =>
              if frame.cell r c = 1 then '#' else '.') ∧
          frame.text.toList.getLast? ≠ some '\n' ∧
          (ofText frame.text = frame ↔ frame.Bitmap)) ∧
      ∀ f g : Frame, f.Bitmap → g.Bitmap → (f.text = g.text ↔ f = g) :=
  ⟨Screen.bitmap_after bitmap_blank,
    fun _ _ hacts => Machine.bitmap_run hacts bitmap_blank,
    Shared.bitmap_after,
    fun frame => ⟨frame.splitOn_text.trans frame.lines_eq, frame.getLast_text, ofText_text_iff⟩,
    fun _ _ => text_inj⟩

/-- A glyph that a program has drawn, with ticks and looks in between, can be told from the clear
screen. -/
theorem screens_are_read_back_from_text_of_glyph :
    let m := (Machine.load [0x00, 0xE0, 0xD0, 0x05]).2
    let acts := Machine.schedule [[.tick], [.takeFrame, .tick]]
    let drawn := (m.run .fresh acts).devices.screen.frame
    drawn.Bitmap ∧ ofText drawn.text = drawn ∧ drawn.text ≠ blank.text := by
  intro m acts drawn
  obtain ⟨_, hrun, _, htext, hinj⟩ := screens_are_read_back_from_text
  have hdrawn : drawn.Bitmap := by
    apply hrun
    intro act hact d hd
    obtain ⟨events, _, rfl⟩ := List.mem_map.mp hact
    rwa [Devices.frame_touches]
  have hne : drawn ≠ blank := by decide +kernel
  refine ⟨hdrawn, (htext drawn).2.2.mpr hdrawn, fun h => hne ?_⟩
  exact (hinj drawn blank hdrawn bitmap_blank).mp h

end Frame
end ChipEight
