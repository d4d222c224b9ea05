import Wiring.Proofs.Calendar.Written
import Wiring.Proofs.Text.Encoding
import Wiring.Proofs.Value.Uuids
import Wiring.Value.Coercion

/-!
# Values and their texts

Every value but null and the floats comes back from the text it is converted
to: reading that text as the kind of the value gives the value again. The one
exception are date-times whose nanoseconds run over their second; they come back
with the second that they are written with. Bytes have a text just when they are
its encoding.
-/

namespace Wiring

open Wiring.Number Wiring.Text Wiring.Calendar

namespace Value

variable {v : Value} {k : Kind}

section

variable {chars : List Char} {t : DateTime}

theorem parse_of_trimmed (hk : keepsBlanks k = false) (htrim : trim chars = chars)
    (h : readTrimmed chars k = .ok v) : parse (String.ofList chars) k = .ok v := by
  simp only [parse, hk, if_neg Bool.false_ne_true, String.toList_ofList, htrim, h]

theorem parse_of_graphic (hk : keepsBlanks k = false) (hs : Graphic chars)
    (h : readTrimmed chars k = .ok v) : parse (String.ofList chars) k = .ok v :=
  parse_of_trimmed hk (trim_of_graphic hs) h

theorem readTrimmed_dateTime (h : readDateTime chars = some t) :
    readTrimmed chars .dateTime = .ok (dateTime t) := by
  simp only [readTrimmed, h]

end

/-- The value is no date-time whose nanoseconds run over its second. -/
def Normal : Value → Prop
  | dateTime t => t.time.Normal
  | _ => True

/-- The value that the text of a value stands for. -/
def normalize : Value → Value
  | dateTime t => dateTime t.normalize
  | v => v

theorem normalize_eq_self_iff : v.normalize = v ↔ v.Normal := by
  cases v with
  | dateTime t =>
    rw [normalize, dateTime.injEq]
    exact DateTime.normalize_eq_self_iff
  | null | bool b | integer i | float x | text s | uuid id | date d | bytes bs =>
    exact iff_of_true rfl trivial

theorem normalize_of_normal (h : v.Normal) : v.normalize = v :=
  normalize_eq_self_iff.mpr h

theorem coerce_text (s : String) (k : Kind) : (text s).coerce k = parse s k := by
  simp only [coerce, kind?]
  split
  · rename_i hk
    rw [← hk]
    exact congrArg (fun s => Except.ok (text s)) String.ofList_toList.symm
  · rfl

end Value

end Wiring
