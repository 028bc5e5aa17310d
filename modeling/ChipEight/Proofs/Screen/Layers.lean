import ChipEight.Proofs.Screen.Drawing
import Mathlib.Data.List.Basic

/-!
Draws one upon the other. To the cells a draw adds its bits, so draws may change places and a draw
that is made again takes itself back. The collision is not told by the bits alone: it depends on
what the draws before have left.
-/

namespace ChipEight

/-- A sprite and the place of its top left corner. -/
structure Layer where
  x : Nat
  y : Nat
  sprite : List UInt8
  deriving DecidableEq, Repr

namespace Frame

def lay (frame : Frame) (layer : Layer) : Frame := (frame.draw layer.x layer.y layer.sprite).1

/-- The draws of a list, the first one first. -/
def layAll (frame : Frame) (layers : List Layer) : Frame := layers.foldl lay frame

/-- Every cell is lit or dark, and nothing else. -/
def Bitmap (frame : Frame) : Prop :=
  ∀ (r : Fin screenHeight) (c : Fin screenWidth), frame.cell r c = 0 ∨ frame.cell r c = 1

variable {frame : Frame} {x y : Nat} {sprite : List UInt8}

theorem ext_cells {f g : Frame}
    (h : ∀ (r : Fin screenHeight) (c : Fin screenWidth), f.cell r c = g.cell r c) : f = g := by
  apply Vector.ext
  intro r hr
  apply Vector.ext
  intro c hc
  exact h ⟨r, hr⟩ ⟨c, hc⟩

theorem bitmap_blank : Bitmap .blank := by
  intro r c
  left
  change blank[r][c] = 0
  simp [blank, Row.blank]

theorem lay_right_comm (frame : Frame) (first second : Layer) :
    (frame.lay first).lay second = (frame.lay second).lay first := by
  apply ext_cells
  intro r c
  simp only [lay, cell_draw, UInt8.xor_assoc]
  rw [UInt8.xor_comm (Sprite.bit first.x _ _ _ _)]

theorem layAll_perm {layers others : List Layer} (h : layers.Perm others) (frame : Frame) :
    frame.layAll layers = frame.layAll others :=
  h.foldl_eq' (fun first _ second _ frame => frame.lay_right_comm first second) frame

/-- A draw that is made again takes itself back. -/
theorem draw_draw (frame : Frame) (x y : Nat) (sprite : List UInt8) :
    ((frame.draw x y sprite).1.draw x y sprite).1 = frame := by
  apply ext_cells
  intro r c
  rw [cell_draw, cell_draw, UInt8.xor_assoc, UInt8.xor_self, UInt8.xor_zero]

/-- The second draw meets the bits that the first has lit. -/
theorem draw_draw_hits_iff (h : frame.Bitmap) (x y : Nat) (sprite : List UInt8) :
    ((frame.draw x y sprite).1.draw x y sprite).2 = true ↔
      ∃ (r : Fin screenHeight) (c : Fin screenWidth),
        Sprite.lit x y sprite r c ∧ frame.cell r c = 0 := by
  rw [draw_hits_iff]
  refine exists_congr fun r => exists_congr fun c => and_congr_right fun hlit => ?_
  rw [cell_draw, Sprite.bit, if_pos hlit]
  rcases h r c with hcell | hcell
  · rw [hcell]
    decide
  · rw [hcell]
    decide

/-- A sprite is drawn as its upper part and then its lower part. If the upper part has come to the
bottom of the screen, nothing of the lower part is drawn either. -/
theorem draw_append (frame : Frame) (x y : Nat) (upper lower : List UInt8) :
    frame.draw x y (upper ++ lower) =
      (((frame.draw x y upper).1.draw x (y + upper.length) lower).1,
        (frame.draw x y upper).2 ||
          ((frame.draw x y upper).1.draw x (y + upper.length) lower).2) := by
  induction upper generalizing frame y with
  | nil => rfl
  | cons byte rest ih =>
      have hlength : y + (byte :: rest).length = y + 1 + rest.length := by
        rw [List.length_cons]
        omega
      by_cases hy : y < screenHeight
      · simp only [List.cons_append, draw_cons hy, ih, hlength, Bool.or_assoc]
      · have hy : screenHeight ≤ y := Nat.not_lt.mp hy
        rw [draw_of_below hy, draw_of_below hy, draw_of_below (Nat.le_add_right_of_le hy)]
        rfl

/-- Draws act on the cells by exclusive or: a list of draws may be put in any order, the same draw
twice restores the frame, and a sprite may be cut in two at any row. The second of two equal draws
collides exactly if the first has lit a cell that was dark. -/
theorem draws_act_by_xor :
    (∀ (frame : Frame) (layers others : List Layer), layers.Perm others →
        frame.layAll layers = frame.layAll others) ∧
      (∀ (frame : Frame) (x y : Nat) (sprite : List UInt8),
        let again := (frame.draw x y sprite).1.draw x y sprite
        again.1 = frame ∧
          (frame.Bitmap →
            (again.2 = true ↔ ∃ (r : Fin screenHeight) (c : Fin screenWidth),
              Sprite.lit x y sprite r c ∧ frame.cell r c = 0))) ∧
      ∀ (frame : Frame) (x y : Nat) (upper lower : List UInt8),
        let first := frame.draw x y upper
        let second := first.1.draw x (y + upper.length) lower
        frame.draw x y (upper ++ lower) = (second.1, first.2 || second.2) :=
  ⟨fun frame _ _ h => layAll_perm h frame,
    fun frame x y sprite =>
      ⟨frame.draw_draw x y sprite, fun h => draw_draw_hits_iff h x y sprite⟩,
    draw_append⟩

/-- A sprite that wraps around the right edge and leaves the screen at the bottom, under a bar. -/
theorem draws_act_by_xor_at_corner :
    let corner : Layer := ⟨62, 30, [0xF0, 0xFF, 0x81]⟩
    let bar : Layer := ⟨60, 31, [0xFF]⟩
    let once := blank.draw 62 30 [0xF0, 0xFF, 0x81]
    [corner, bar].Perm [bar, corner] ∧ blank.Bitmap ∧
      blank.layAll [corner, bar] = blank.layAll [bar, corner] ∧
      (once.1.draw 62 30 [0xF0, 0xFF, 0x81]).2 = true := by
  intro corner bar once
  have hperm : [corner, bar].Perm [bar, corner] := .swap bar corner []
  have hlit : Sprite.lit 62 30 [0xF0, 0xFF, 0x81] 31 5 = true := by decide
  have hdark : blank.cell 31 5 = 0 := by decide
  obtain ⟨horder, hagain, _⟩ := draws_act_by_xor
  obtain ⟨_, hhits⟩ := hagain blank 62 30 [0xF0, 0xFF, 0x81]
  exact ⟨hperm, bitmap_blank, horder blank _ _ hperm, (hhits bitmap_blank).mpr ⟨31, 5, hlit, hdark⟩⟩

end Frame
end ChipEight
