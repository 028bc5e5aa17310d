import ChipEight.Screen
import Mathlib.Data.List.Nodup

/-!
What a sprite does to a frame, cell by cell. The loops over the rows and bits of a sprite add one
dot after the other in place. No cell gets two of them, so the outcome is as if all were added at
once, and the collision is told from the frame as it was before.
-/

namespace ChipEight

/-- One turn of the loop over the bits: a cell, by two indices as they are computed, and the bit
that is added to it. -/
structure Dot where
  row : Nat
  column : Nat
  value : UInt8
  deriving DecidableEq, Repr

namespace Dot

def place (dot : Dot) : Nat × Nat := (dot.row, dot.column)

def Inside (dot : Dot) : Prop := dot.row < screenHeight ∧ dot.column < screenWidth

instance (dot : Dot) : Decidable dot.Inside := inferInstanceAs (Decidable (_ ∧ _))

/-- What a list of dots adds to a cell altogether. -/
def total (place : Nat × Nat) : List Dot → UInt8
  | [] => 0
  | dot :: rest => if dot.place = place then dot.value ^^^ total place rest else total place rest

/-- The dots of one byte of a sprite, from the left. -/
def ofByte (x row : Nat) (byte : UInt8) : List Dot :=
  (List.range 8).map fun j => ⟨row, (x + j) % screenWidth, Row.bit byte j⟩

/-- The dots of a sprite in the order in which they are added. A row past the bottom ends it. -/
def ofSprite (x y : Nat) : List UInt8 → List Dot
  | [] => []
  | byte :: rest => if y < screenHeight then ofByte x y byte ++ ofSprite x (y + 1) rest else []

end Dot

namespace Sprite

/-- How far a cell is to the right of column `x`. The columns are a ring. -/
def offset (x : Nat) (c : Fin screenWidth) : Nat := (((c.val : Int) - x) % screenWidth).toNat

/-- Whether a sprite with its top left corner at column `x` and row `y` has a lit bit on a cell. -/
def lit (x y : Nat) (sprite : List UInt8) (r : Fin screenHeight) (c : Fin screenWidth) : Bool :=
  y ≤ r.val && offset x c < 8 && sprite[r.val - y]?.any (·.toNat.testBit (7 - offset x c))

/-- What the sprite adds to a cell. -/
def bit (x y : Nat) (sprite : List UInt8) (r : Fin screenHeight) (c : Fin screenWidth) : UInt8 :=
  if lit x y sprite r c then 1 else 0

end Sprite

namespace Frame

/-- The cell in row `r` and column `c`. -/
def cell (frame : Frame) (r : Fin screenHeight) (c : Fin screenWidth) : UInt8 :=
  (frame.get r).get c

/-- Adds a dot in place; true if both it and the cell were lit. A dot off the frame is lost. -/
def plot (frame : Frame) (dot : Dot) : Frame × Bool :=
  if h : dot.Inside then
    let r : Fin screenHeight := ⟨dot.row, h.1⟩
    let c : Fin screenWidth := ⟨dot.column, h.2⟩
    (frame.setCell r c (frame.cell r c ^^^ dot.value), dot.value &&& frame.cell r c == 1)
  else (frame, false)

def plotAll (frame : Frame) : List Dot → Frame × Bool
  | [] => (frame, false)
  | dot :: rest =>
      let (drawn, hit) := frame.plot dot
      let (final, hits) := drawn.plotAll rest
      (final, hit || hits)

variable {frame : Frame} {x y : Nat} {dot : Dot} {dots : List Dot}

theorem cell_setCell (frame : Frame) (r r' : Fin screenHeight) (c c' : Fin screenWidth)
    (value : UInt8) :
    (frame.setCell r c value).cell r' c' =
      if (r.val, c.val) = (r'.val, c'.val) then value else frame.cell r' c' := by
  have hcell (f : Frame) : f.cell r' c' = f[r'][c'] := rfl
  simp only [hcell, setCell, Fin.getElem_fin, Prod.mk.injEq]
  by_cases hr : r.val = r'.val
  · by_cases hc : c.val = c'.val
    · simp [hr, hc]
    · simp [hr, hc]
  · simp [hr]

/-! The loops add the dots of the sprite. -/

theorem plotAll_cons (frame : Frame) (dot : Dot) (rest : List Dot) :
    frame.plotAll (dot :: rest) =
      (((frame.plot dot).1.plotAll rest).1,
        (frame.plot dot).2 || ((frame.plot dot).1.plotAll rest).2) := rfl

theorem plotAll_append (frame : Frame) (first second : List Dot) :
    frame.plotAll (first ++ second) =
      (((frame.plotAll first).1.plotAll second).1,
        (frame.plotAll first).2 || ((frame.plotAll first).1.plotAll second).2) := by
  induction first generalizing frame with
  | nil => rfl
  | cons dot rest ih => simp only [List.cons_append, plotAll_cons, ih, Bool.or_assoc]

theorem plot_row (hy : y < screenHeight) (frame : Frame) (column : Nat) (value : UInt8) :
    frame.plot ⟨y, column % screenWidth, value⟩ =
      (frame.set y (frame[y].plot column value).1, (frame[y].plot column value).2) :=
  dif_pos ⟨hy, Nat.mod_lt _ (by decide)⟩

theorem plotAll_bits (hy : y < screenHeight) (x : Nat) (byte : UInt8) {n : Nat} (hn : n ≤ 8)
    (frame : Frame) :
    frame.plotAll ((List.range' (8 - n) n).map
        fun j => ⟨y, (x + j) % screenWidth, Row.bit byte j⟩) =
      (frame.set y (frame[y].drawBits x byte n).1, (frame[y].drawBits x byte n).2) := by
  induction n generalizing frame with
  | zero => simp [plotAll, Row.drawBits]
  | succ n ih =>
      have hfirst : 8 - (n + 1) = 7 - n := by omega
      have hrest : 7 - n + 1 = 8 - n := by omega
      rw [hfirst, List.range'_succ, hrest, List.map_cons, plotAll_cons, plot_row hy,
        ih (by omega)]
      simp only [Row.drawBits, Vector.getElem_set_self, Vector.set_set]

theorem draw_cons (hy : y < screenHeight) (frame : Frame) (x : Nat) (byte : UInt8)
    (rest : List UInt8) :
    frame.draw x y (byte :: rest) =
      ((draw (frame.set y (frame[y].drawByte x byte).1) x (y + 1) rest).1,
        (frame[y].drawByte x byte).2 ||
          (draw (frame.set y (frame[y].drawByte x byte).1) x (y + 1) rest).2) :=
  dif_pos hy

theorem draw_of_below (hy : screenHeight ≤ y) (frame : Frame) (x : Nat) (sprite : List UInt8) :
    frame.draw x y sprite = (frame, false) := by
  cases sprite with
  | nil => rfl
  | cons byte rest => exact dif_neg (Nat.not_lt.mpr hy)

theorem draw_eq_plotAll (frame : Frame) (x y : Nat) (sprite : List UInt8) :
    frame.draw x y sprite = frame.plotAll (Dot.ofSprite x y sprite) := by
  induction sprite generalizing frame y with
  | nil => rfl
  | cons byte rest ih =>
      by_cases hy : y < screenHeight
      · have hbyte : frame.plotAll (Dot.ofByte x y byte) =
            (frame.set y (frame[y].drawByte x byte).1, (frame[y].drawByte x byte).2) :=
          plotAll_bits hy x byte (Nat.le_refl 8) frame
        rw [Dot.ofSprite, if_pos hy, plotAll_append, hbyte, draw_cons hy, ih]
      · rw [Dot.ofSprite, if_neg hy, draw_of_below (Nat.not_lt.mp hy)]
        rfl

/-! Dots that are added one after the other are as if added at once. -/

theorem cell_plot (hinside : dot.Inside) (frame : Frame) (r : Fin screenHeight)
    (c : Fin screenWidth) :
    (frame.plot dot).1.cell r c =
      if dot.place = (r.val, c.val) then frame.cell r c ^^^ dot.value else frame.cell r c := by
  rw [plot, dif_pos hinside]
  simp only [cell_setCell]
  by_cases hplace : dot.place = (r.val, c.val)
  · obtain ⟨row, column, value⟩ := dot
    obtain ⟨rfl, rfl⟩ := Prod.mk.inj hplace
    rfl
  · rw [if_neg hplace]
    exact if_neg hplace

theorem cell_plotAll (hinside : ∀ dot ∈ dots, dot.Inside) (frame : Frame)
    (r : Fin screenHeight) (c : Fin screenWidth) :
    (frame.plotAll dots).1.cell r c = frame.cell r c ^^^ Dot.total (r.val, c.val) dots := by
  induction dots generalizing frame with
  | nil => exact UInt8.xor_zero.symm
  | cons dot rest ih =>
      obtain ⟨hdot, hrest⟩ := List.forall_mem_cons.mp hinside
      rw [plotAll_cons, ih hrest, cell_plot hdot, Dot.total]
      split
      · rw [UInt8.xor_assoc]
      · rfl

end Frame

namespace Dot

variable {x y : Nat} {byte : UInt8} {sprite : List UInt8} {dot : Dot} {dots : List Dot}
  {p : Nat × Nat}

theorem total_of_not_mem (h : p ∉ dots.map place) : total p dots = 0 := by
  induction dots with
  | nil => rfl
  | cons dot rest ih =>
      rw [List.map_cons, List.mem_cons, not_or] at h
      rw [total, if_neg (Ne.symm h.1), ih h.2]

theorem total_of_mem (hplaces : (dots.map place).Nodup) (h : dot ∈ dots) :
    total dot.place dots = dot.value := by
  induction dots with
  | nil => cases h
  | cons first rest ih =>
      obtain ⟨hfirst, hrest⟩ := List.nodup_cons.mp hplaces
      rcases List.mem_cons.mp h with rfl | h
      · rw [total, if_pos rfl, total_of_not_mem hfirst, UInt8.xor_zero]
      · have hne : first.place ≠ dot.place := fun he => hfirst (he ▸ List.mem_map_of_mem h)
        rw [total, if_neg hne, ih hrest h]

theorem total_append (p : Nat × Nat) (first second : List Dot) :
    total p (first ++ second) = total p first ^^^ total p second := by
  induction first with
  | nil => exact UInt8.zero_xor.symm
  | cons dot rest ih =>
      rw [List.cons_append, total, total, ih]
      split
      · rw [UInt8.xor_assoc]
      · rfl

/-! No dot of a sprite is off the frame, and no two are at one place. -/

theorem mem_ofByte {row : Nat} :
    dot ∈ ofByte x row byte ↔
      ∃ j, j < 8 ∧ dot = ⟨row, (x + j) % screenWidth, Row.bit byte j⟩ := by
  simp only [ofByte, List.mem_map, List.mem_range, eq_comm]

theorem nodup_ofByte (x row : Nat) (byte : UInt8) : ((ofByte x row byte).map place).Nodup := by
  rw [ofByte, List.map_map]
  apply List.Nodup.map_on _ List.nodup_range
  intro j hj k hk hplace
  rw [List.mem_range] at hj hk
  have hcolumn : (x + j) % 64 = (x + k) % 64 := congrArg Prod.snd hplace
  omega

theorem rows_ofSprite (h : dot ∈ ofSprite x y sprite) :
    y ≤ dot.row ∧ dot.row < screenHeight ∧ dot.column < screenWidth := by
  induction sprite generalizing y with
  | nil => cases h
  | cons byte rest ih =>
      rw [ofSprite] at h
      split at h
      · rcases List.mem_append.mp h with h | h
        · obtain ⟨j, _, rfl⟩ := mem_ofByte.mp h
          exact ⟨Nat.le_refl y, ‹_›, Nat.mod_lt _ (by decide)⟩
        · obtain ⟨hy, hinside⟩ := ih h
          exact ⟨Nat.le_of_succ_le hy, hinside⟩
      · cases h

theorem nodup_ofSprite (x y : Nat) (sprite : List UInt8) :
    ((ofSprite x y sprite).map place).Nodup := by
  induction sprite generalizing y with
  | nil => exact List.nodup_nil
  | cons byte rest ih =>
      rw [ofSprite]
      split
      · rw [List.map_append]
        refine (nodup_ofByte x y byte).append (ih (y + 1)) ?_
        -- the rows below are other rows
        intro p hfirst hsecond
        obtain ⟨dot, hdot, rfl⟩ := List.mem_map.mp hfirst
        obtain ⟨below, hbelow, hplace⟩ := List.mem_map.mp hsecond
        obtain ⟨j, _, rfl⟩ := mem_ofByte.mp hdot
        have hrow : below.row = y := congrArg Prod.fst hplace
        have hlow := (rows_ofSprite hbelow).1
        omega
      · exact List.nodup_nil

end Dot

/-! What the dots of a sprite add is what its bits say. -/

namespace Sprite

variable {x y : Nat} {byte : UInt8} {sprite : List UInt8} {r : Fin screenHeight}
  {c : Fin screenWidth}

theorem bit_of_above (h : r.val < y) : bit x y sprite r c = 0 := by
  have hlit : lit x y sprite r c = false := by simp [lit, Nat.not_le.mpr h]
  rw [bit, hlit]
  rfl

/-- The first byte of a sprite is all that is in its first row. -/
theorem bit_cons (x y : Nat) (byte : UInt8) (rest : List UInt8) (r : Fin screenHeight)
    (c : Fin screenWidth) :
    bit x y (byte :: rest) r c =
      (if y = r.val ∧ offset x c < 8 then Row.bit byte (offset x c) else 0) ^^^
        bit x (y + 1) rest r c := by
  rcases Nat.lt_trichotomy r.val y with hlt | rfl | hgt
  · rw [bit_of_above hlt, bit_of_above (by omega), if_neg (by omega)]
    rfl
  · rw [bit_of_above (Nat.lt_succ_self _), UInt8.xor_zero]
    by_cases hoffset : offset x c < 8
    · simp [bit, lit, Row.bit, hoffset]
    · simp [bit, lit, hoffset]
  · have hindex : r.val - y = r.val - (y + 1) + 1 := by omega
    have hlit : lit x y (byte :: rest) r c = lit x (y + 1) rest r c := by
      simp [lit, hindex, Nat.le_of_lt hgt, Nat.succ_le_of_lt hgt]
    rw [if_neg (by omega), UInt8.zero_xor, bit, bit, hlit]

end Sprite

namespace Dot

theorem column_eq_iff {j : Nat} (hj : j < 8) (x : Nat) (c : Fin screenWidth) :
    (x + j) % screenWidth = c.val ↔ j = Sprite.offset x c := by
  have hc := c.isLt
  simp only [screenWidth] at hc
  simp only [Sprite.offset, screenWidth]
  omega

theorem total_ofByte (x row : Nat) (byte : UInt8) (r : Nat) (c : Fin screenWidth) :
    total (r, c.val) (ofByte x row byte) =
      if row = r ∧ Sprite.offset x c < 8 then Row.bit byte (Sprite.offset x c) else 0 := by
  split
  · rename_i h
    obtain ⟨rfl, hoffset⟩ := h
    have hcolumn := (column_eq_iff hoffset x c).mpr rfl
    have htotal := total_of_mem (nodup_ofByte x row byte) (mem_ofByte.mpr ⟨_, hoffset, rfl⟩)
    rwa [place, hcolumn] at htotal
  · rename_i h
    apply total_of_not_mem
    intro hmem
    obtain ⟨dot, hdot, hplace⟩ := List.mem_map.mp hmem
    obtain ⟨j, hj, rfl⟩ := mem_ofByte.mp hdot
    obtain ⟨rfl, hcolumn⟩ := Prod.mk.inj hplace
    obtain rfl := (column_eq_iff hj x c).mp hcolumn
    exact h ⟨rfl, hj⟩

theorem total_ofSprite (x y : Nat) (sprite : List UInt8) (r : Fin screenHeight)
    (c : Fin screenWidth) :
    total (r.val, c.val) (ofSprite x y sprite) = Sprite.bit x y sprite r c := by
  induction sprite generalizing y with
  | nil => simp [ofSprite, total, Sprite.bit, Sprite.lit]
  | cons byte rest ih =>
      rw [Sprite.bit_cons, ofSprite]
      split
      · rw [total_append, total_ofByte, ih]
      · rename_i hy
        have hr := r.isLt
        rw [if_neg (by omega), Sprite.bit_of_above (by omega), UInt8.xor_zero]
        rfl

end Dot

namespace Frame

variable {frame : Frame} {x y : Nat} {sprite : List UInt8} {dots : List Dot}

/-- A collision is told from the frame before: what a dot changes is at no other dot's place. -/
theorem plotAll_hits_iff (hinside : ∀ dot ∈ dots, dot.Inside)
    (hplaces : (dots.map Dot.place).Nodup) (frame : Frame) :
    (frame.plotAll dots).2 = true ↔
      ∃ (r : Fin screenHeight) (c : Fin screenWidth),
        Dot.total (r.val, c.val) dots &&& frame.cell r c = 1 := by
  induction dots generalizing frame with
  | nil => simp [plotAll, Dot.total]
  | cons dot rest ih =>
      obtain ⟨hdot, hrest⟩ := List.forall_mem_cons.mp hinside
      obtain ⟨hplace, hplaces⟩ := List.nodup_cons.mp hplaces
      have hhit : (frame.plot dot).2 = true ↔ ∃ (r : Fin screenHeight) (c : Fin screenWidth),
          dot.place = (r.val, c.val) ∧ dot.value &&& frame.cell r c = 1 := by
        rw [plot, dif_pos hdot, beq_iff_eq]
        constructor
        · exact fun h => ⟨⟨dot.row, hdot.1⟩, ⟨dot.column, hdot.2⟩, rfl, h⟩
        · rintro ⟨r, c, hp, h⟩
          obtain ⟨row, column, value⟩ := dot
          obtain ⟨rfl, rfl⟩ := Prod.mk.inj hp
          exact h
      rw [plotAll_cons, Bool.or_eq_true, ih hrest hplaces, hhit, ← exists_or]
      refine exists_congr fun r => ?_
      rw [← exists_or]
      refine exists_congr fun c => ?_
      rw [cell_plot hdot, Dot.total]
      by_cases hp : dot.place = (r.val, c.val)
      · have hzero := Dot.total_of_not_mem hplace
        rw [hp] at hzero
        simp [hp, hzero]
      · simp [hp]

theorem inside_ofSprite (x y : Nat) (sprite : List UInt8) :
    ∀ dot ∈ Dot.ofSprite x y sprite, dot.Inside :=
  fun _ hdot => (Dot.rows_ofSprite hdot).2

theorem cell_draw (frame : Frame) (x y : Nat) (sprite : List UInt8) (r : Fin screenHeight)
    (c : Fin screenWidth) :
    (frame.draw x y sprite).1.cell r c = frame.cell r c ^^^ Sprite.bit x y sprite r c := by
  rw [draw_eq_plotAll, cell_plotAll (inside_ofSprite x y sprite), Dot.total_ofSprite]

theorem one_and_eq_one_iff (cell : UInt8) : 1 &&& cell = 1 ↔ cell.toNat % 2 = 1 := by
  rw [← UInt8.toNat_inj, UInt8.toNat_and, Nat.and_comm]
  exact Eq.congr_left (Nat.and_one_is_mod _)

theorem draw_hits_iff (frame : Frame) (x y : Nat) (sprite : List UInt8) :
    (frame.draw x y sprite).2 = true ↔
      ∃ (r : Fin screenHeight) (c : Fin screenWidth),
        Sprite.lit x y sprite r c ∧ (frame.cell r c).toNat % 2 = 1 := by
  rw [draw_eq_plotAll,
    plotAll_hits_iff (inside_ofSprite x y sprite) (Dot.nodup_ofSprite x y sprite)]
  refine exists_congr fun r => exists_congr fun c => ?_
  rw [Dot.total_ofSprite, Sprite.bit]
  cases Sprite.lit x y sprite r c with
  | true => simp [one_and_eq_one_iff]
  | false => simp

/-- Whatever the bytes in the cells, the place and the length of the sprite, each cell gets the bit
that falls on it, and there is a collision exactly if a lit bit falls on a cell whose low bit is
set. The loops come to this because they add their dots on the frame, and no two at one place. -/
theorem draw_is_pointwise (frame : Frame) (x y : Nat) (sprite : List UInt8) :
    (∀ (r : Fin screenHeight) (c : Fin screenWidth),
        (frame.draw x y sprite).1.cell r c = frame.cell r c ^^^ Sprite.bit x y sprite r c) ∧
      ((frame.draw x y sprite).2 = true ↔
        ∃ (r : Fin screenHeight) (c : Fin screenWidth),
          Sprite.lit x y sprite r c ∧ (frame.cell r c).toNat % 2 = 1) ∧
      frame.draw x y sprite = frame.plotAll (Dot.ofSprite x y sprite) ∧
      ((Dot.ofSprite x y sprite).map Dot.place).Nodup ∧
      ∀ dot ∈ Dot.ofSprite x y sprite, dot.row < screenHeight ∧ dot.column < screenWidth :=
  ⟨frame.cell_draw x y sprite, frame.draw_hits_iff x y sprite, frame.draw_eq_plotAll x y sprite,
    Dot.nodup_ofSprite x y sprite, inside_ofSprite x y sprite⟩

end Frame
end ChipEight
