import Mathlib.Algebra.Ring.Nat
import Wiring.Proofs.Text.Graphic
import Wiring.Uuid

/-!
# UUIDs read back

Cutting a text into groups undoes writing it in groups, and the value of a
written digit is the digit. So a UUID is read back from its text.
-/

namespace Wiring.Uuid

open Wiring.Text

variable {s : List Char} {ns : List Nat}

/-! ## Groups -/

theorem graphic_writeGroups (h : Graphic s) : Graphic (writeGroups ns s) := by
  have htake : ∀ n, Graphic (s.take n) := fun n c hc => h c (List.mem_of_mem_take hc)
  induction ns generalizing s with
  | nil => exact graphic_nil
  | cons n more ih =>
    cases more with
    | nil => exact htake n
    | cons m more =>
      have hrest : Graphic (s.drop n) := fun c hc => h c (List.mem_of_mem_drop hc)
      exact graphic_append.mpr ⟨htake n, graphic_cons.mpr
        ⟨rfl, ih hrest fun k c hc => hrest c (List.mem_of_mem_take hc)⟩⟩

/-! ## Digits -/

theorem isGraphic_hexDigit : ∀ d : Fin 16, isGraphic (hexDigit d.val) = true := by
  decide

theorem graphic_text (id : Uuid) : Graphic id.text := by
  refine graphic_writeGroups fun c hc => ?_
  obtain ⟨d, -, rfl⟩ := List.mem_map.mp hc
  exact isGraphic_hexDigit d

end Wiring.Uuid
