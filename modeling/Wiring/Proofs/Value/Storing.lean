import Wiring.Proofs.Number.Exact
import Wiring.Value.FieldType

/-!
# What a field holds

Coercing to a kind gives a value of that kind, or null for null, so a coerced
value is not coerced further. `FieldType.coerce` and `FieldType.store` differ in
the last step only, the fit into the type; hence a value may be coerced before
it is stored, and a stored value is stored again as it is.
-/

namespace Wiring

open Wiring.Number Wiring.Text

namespace Value

/-! ## Kinds -/

theorem kind?_of_readTrimmed {s : List Char} {k : Kind} {v : Value}
    (h : readTrimmed s k = .ok v) : v.kind? = some k := by
  cases k with
  | text | bytes =>
    cases h
    rfl
  | bool =>
    simp only [readTrimmed] at h
    split at h
    · cases h; rfl
    · split at h
      · cases h; rfl
      · cases h
  | integer | float | uuid | date | dateTime =>
    simp only [readTrimmed] at h
    split at h
    · cases h; rfl
    · cases h

theorem kind?_of_parse {s : String} {k : Kind} {v : Value} (h : parse s k = .ok v) :
    v.kind? = some k := by
  simp only [parse] at h
  split at h
  · rename_i hread
    cases h
    exact kind?_of_readTrimmed hread
  · cases h

theorem kind?_of_convert {v w : Value} {k : Kind} (h : v.convert k = .ok w) :
    w.kind? = some k := by
  unfold convert at h
  split at h
  · exact kind?_of_parse h
  · cases h; rfl
  · split at h
    · cases h; rfl
    · cases h
  · split at h
    · cases h; rfl
    · cases h
  · cases h; rfl
  · split at h
    · cases h; rfl
    · cases h
  · cases h; rfl
  · cases h

theorem isNull_iff {v : Value} : v.isNull = true ↔ v = .null := by
  cases v <;> simp [isNull, kind?]

theorem isNull_of_kind? {v : Value} {k : Kind} (h : v.kind? = some k) : v.isNull = false := by
  simp [isNull, h]

theorem coerce_of_kind? {v : Value} {k : Kind} (h : v.kind? = some k) : v.coerce k = .ok v := by
  simp only [coerce, h, if_true]

theorem kind?_of_coerce {v w : Value} {k : Kind} (hv : v.isNull = false)
    (h : v.coerce k = .ok w) : w.kind? = some k := by
  simp only [coerce] at h
  split at h
  · rename_i hnone
    simp [isNull, hnone] at hv
  · rename_i own hown
    split at h
    · rename_i hk
      cases h
      rw [hown, hk]
    · exact kind?_of_convert h

end Value

namespace FieldType

/-! ## Fitting, coercing and storing -/

/-- The type without the options around it. -/
def base : FieldType → FieldType
  | option t => t.base
  | t => t

@[simp] theorem kind_base (t : FieldType) : t.base.kind = t.kind := by
  induction t with
  | option t ih => exact ih
  | _ => rfl

/-- What becomes of null. -/
def onNull (t : FieldType) : Except CoercionError Value :=
  if t.nullable then .ok .null else .error ⟨.null, t.kind, .notNullable⟩

theorem coerce_eq (t : FieldType) (v : Value) :
    t.coerce v = if v.isNull then t.onNull else v.coerce t.kind := by
  simp only [coerce, onNull, Value.require]
  cases hv : v.isNull with
  | false => simp
  | true =>
    rw [Value.isNull_iff] at hv
    subst hv
    rfl

theorem store_eq (t : FieldType) (v : Value) :
    t.store v = if v.isNull then t.onNull else (v.coerce t.kind).bind t.base.fit := by
  induction t with
  | option t ih =>
    rw [store]
    cases hv : v.isNull with
    | true => rfl
    | false =>
      rw [hv] at ih
      simpa [kind, base] using ih
  | _ =>
    cases hv : v.isNull with
    | true =>
      rw [Value.isNull_iff] at hv
      subst hv
      rfl
    | false => simp [store, Value.require, hv, base]

theorem fit_eq_ok {t : FieldType} {v w : Value} (h : t.fit v = .ok w) :
    w.kind? = some t.kind ∧ t.fit w = .ok w := by
  unfold fit at h
  split at h
  · rename_i width i
    split at h
    · rename_i hholds
      cases h
      exact ⟨rfl, by simp only [fit, hholds, if_true]⟩
    · cases h
  · rename_i x
    cases h
    exact ⟨rfl, by simp only [fit, Binary64.narrow_narrow]⟩
  · cases h; exact ⟨rfl, rfl⟩
  · cases h; exact ⟨rfl, rfl⟩
  · cases h; exact ⟨rfl, rfl⟩
  · cases h; exact ⟨rfl, rfl⟩
  · cases h; exact ⟨rfl, rfl⟩
  · cases h; exact ⟨rfl, rfl⟩
  · cases h; exact ⟨rfl, rfl⟩
  · cases h

/-- A value that cannot be coerced cannot be stored, for the same reason. -/
theorem store_of_coerce_error {t : FieldType} {v : Value} {e : CoercionError}
    (h : t.coerce v = .error e) : t.store v = .error e := by
  rw [coerce_eq] at h
  rw [store_eq]
  cases hv : v.isNull with
  | true => rwa [hv] at h
  | false =>
    rw [hv] at h
    simp only [Bool.false_eq_true, if_false] at h ⊢
    rw [h]
    rfl

/-- Coercing before storing makes no difference. -/
theorem store_of_coerce {t : FieldType} {v w : Value} (h : t.coerce v = .ok w) :
    t.store v = t.store w := by
  rw [coerce_eq] at h
  cases hv : v.isNull with
  | true =>
    rw [hv] at h
    simp only [if_true, onNull] at h
    split at h
    · cases h
      rw [Value.isNull_iff.mp hv]
    · cases h
  | false =>
    rw [hv] at h
    simp only [Bool.false_eq_true, if_false] at h
    have hkind := Value.kind?_of_coerce hv h
    simp only [store_eq, hv, Value.isNull_of_kind? hkind, h, Value.coerce_of_kind? hkind]

/-- **Stored values are settled.** What a field holds can be written back to it as
it is. -/
theorem store_store {t : FieldType} {v w : Value} (h : t.store v = .ok w) : t.store w = .ok w := by
  rw [store_eq] at h
  cases hv : v.isNull with
  | true =>
    rw [hv] at h
    simp only [if_true, onNull] at h
    split at h
    · rename_i hnull
      cases h
      rw [store_eq]
      simp [Value.isNull, Value.kind?, onNull, hnull]
    · cases h
  | false =>
    rw [hv] at h
    simp only [Bool.false_eq_true, if_false] at h
    cases hu : v.coerce t.kind with
    | error e => rw [hu] at h; cases h
    | ok u =>
      rw [hu] at h
      obtain ⟨hkind, hfit⟩ := fit_eq_ok h
      rw [kind_base] at hkind
      rw [store_eq, Value.isNull_of_kind? hkind, Value.coerce_of_kind? hkind]
      exact hfit

end FieldType

end Wiring
