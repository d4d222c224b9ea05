import Wiring.Proofs.Value.Storing

/-!
# Outcomes of conversions

A conversion ends in a value of the kind that was wanted, in null for null, or in an error
that names this kind. So the causes that stand for values of yet another kind, and for days
without a midnight, never come about. Whether a field takes a value can be told from the
coerced value alone: only integers out of range are refused after coercion.
-/

namespace Wiring

open Wiring.Calendar

/-- The error says that the kind was wanted. Its cause is none of the two that never come about. -/
def CoercionError.Wants (e : CoercionError) (k : Kind) : Prop :=
  e.expected = k ∧ e.cause ≠ .noMidnight ∧ e.cause ≠ .unexpectedKind

namespace Value

variable {v w : Value} {k : Kind}

/-- What a value may become when it is converted to a kind: null from null, else a value of
that kind, and in both cases one that is not converted any further; or an error that says so. -/
def Lands (v : Value) (k : Kind) : Except CoercionError Value → Prop
  | .ok w => (w = .null ↔ v = .null) ∧ (v ≠ .null → w.kind? = some k) ∧ w.coerce k = .ok w
  | .error e => e.Wants k

theorem lands_of_kind? (hv : v ≠ .null) (hw : w.kind? = some k) : Lands v k (.ok w) := by
  have hne : w ≠ .null := by
    rintro rfl
    cases hw
  exact ⟨iff_of_false hne hv, fun _ => hw, coerce_of_kind? hw⟩

theorem cause_of_readTrimmed {s : List Char} {cause : Refusal}
    (h : readTrimmed s k = .error cause) : cause ≠ .noMidnight ∧ cause ≠ .unexpectedKind := by
  cases k with
  | text | bytes => cases h
  | bool =>
    simp only [readTrimmed] at h
    split at h
    · cases h
    · split at h
      · cases h
      · cases h
        exact ⟨by simp, by simp⟩
  | integer | float | uuid | date | dateTime =>
    simp only [readTrimmed] at h
    split at h
    · cases h
    · cases h
      exact ⟨by simp, by simp⟩

theorem lands_parse (s : String) (k : Kind) : Lands (.text s) k (parse s k) := by
  cases h : parse s k with
  | ok w => exact lands_of_kind? nofun (kind?_of_parse h)
  | error e =>
    simp only [parse] at h
    split at h
    · cases h
    · rename_i cause hcause
      cases h
      exact ⟨rfl, cause_of_readTrimmed hcause⟩

theorem isTime_midnight : isTime 0 0 0 0 = true := rfl

/-- The first moment of a date. -/
def midnight (d : Date) : DateTime :=
  ⟨d, 0, 0, 0, 0, isTime_midnight⟩

theorem at?_midnight (d : Date) : d.at? 0 0 0 = some (midnight d) := rfl

theorem lands_convert (hv : v ≠ .null) (k : Kind) : Lands v k (v.convert k) := by
  cases h : v.convert k with
  | ok w => exact lands_of_kind? hv (kind?_of_convert h)
  | error e =>
    unfold convert at h
    split at h
    · exact h ▸ lands_parse _ _
    · cases h
    · split at h
      · cases h
      · cases h
        exact ⟨rfl, by simp, by simp⟩
    · -- Every day has a midnight, so a date is not refused.
      rw [at?_midnight] at h
      cases h
    · cases h
    · split at h
      · cases h
      · cases h
        exact ⟨rfl, by simp, by simp⟩
    · cases h
    · cases h
      exact ⟨rfl, by simp, by simp⟩

theorem lands_coerce (v : Value) (k : Kind) : Lands v k (v.coerce k) := by
  by_cases hv : v = .null
  · subst hv
    exact ⟨Iff.rfl, fun h => absurd rfl h, rfl⟩
  · unfold coerce
    split
    · rename_i hkind
      exact absurd (isNull_iff.mp (by rw [isNull, hkind, Option.isNone_none])) hv
    · rename_i own hkind
      split
      · rename_i hown
        exact lands_of_kind? hv (hown ▸ hkind)
      · exact lands_convert hv k

end Value

namespace FieldType

variable {t : FieldType} {v w u : Value} {e : CoercionError}

/-! ## Fitting a value of the right kind -/

theorem fit_of_base_int {width : Width} (ht : t.base = int width) (hw : w.kind? = some t.kind) :
    ∃ i, w = .integer i ∧ t.base.fit w =
      if width.low ≤ i.toInt ∧ i.toInt ≤ width.high then .ok w
      else .error ⟨w, .integer, .outOfRange width.name⟩ := by
  rw [← kind_base, ht] at hw
  cases w with
  | integer i =>
    refine ⟨i, rfl, ?_⟩
    simp only [ht, fit, Width.holds, Bool.and_eq_true, decide_eq_true_eq]
  | null | bool | float | text | uuid | date | dateTime | bytes => cases hw

theorem fit_of_base_ne_int (ht : ∀ width, t.base ≠ int width) (hw : w.kind? = some t.kind) :
    ∃ u, t.base.fit w = .ok u ∧ (t.base ≠ single → u = w) := by
  induction t with
  | option t ih => exact ih ht hw
  | int width => exact absurd rfl (ht width)
  | single =>
    cases w <;> cases hw
    exact ⟨_, rfl, fun hne => absurd rfl hne⟩
  | double | bool | text | uuid | date | dateTime | bytes =>
    cases w <;> cases hw
    exact ⟨_, rfl, fun _ => rfl⟩

/-- A value of the right kind is refused only if it is an integer out of range. -/
theorem fit_base_eq_error_iff (hw : w.kind? = some t.kind) :
    t.base.fit w = .error e ↔ ∃ width i, t.base = int width ∧ w = .integer i ∧
      ¬ (width.low ≤ i.toInt ∧ i.toInt ≤ width.high) ∧
      e = ⟨w, .integer, .outOfRange width.name⟩ := by
  constructor
  · intro h
    by_cases hint : ∃ width, t.base = int width
    · obtain ⟨width, hbase⟩ := hint
      obtain ⟨i, hi, hfit⟩ := fit_of_base_int hbase hw
      rw [hfit] at h
      split at h
      · cases h
      · rename_i hout
        exact ⟨width, i, hbase, hi, hout, (Except.error.inj h).symm⟩
    · obtain ⟨u, hfit, -⟩ := fit_of_base_ne_int (not_exists.mp hint) hw
      rw [hfit] at h
      cases h
  · rintro ⟨width, i, hbase, rfl, hout, rfl⟩
    obtain ⟨j, hj, hfit⟩ := fit_of_base_int hbase hw
    cases hj
    rw [hfit, if_neg hout]

theorem eq_of_fit_base (hw : w.kind? = some t.kind) (ht : t.base ≠ single)
    (h : t.base.fit w = .ok u) : u = w := by
  by_cases hint : ∃ width, t.base = int width
  · obtain ⟨width, hbase⟩ := hint
    obtain ⟨i, -, hfit⟩ := fit_of_base_int hbase hw
    rw [hfit] at h
    split at h
    · exact (Except.ok.inj h).symm
    · cases h
  · obtain ⟨u', hfit, hu⟩ := fit_of_base_ne_int (not_exists.mp hint) hw
    rw [hfit] at h
    cases h
    exact hu ht

/-! ## Storing what was coerced -/

/-- Only the fit stands between a coerced value and a stored one. -/
theorem store_of_coerce_ok (h : t.coerce v = .ok w) :
    (w = .null ∧ t.store v = .ok .null) ∨ (w.kind? = some t.kind ∧ t.store v = t.base.fit w) := by
  rw [coerce_eq] at h
  rw [store_eq]
  cases hv : v.isNull with
  | true =>
    rw [hv, if_pos rfl] at h
    rw [if_pos rfl, h]
    unfold onNull at h
    split at h
    · cases h
      exact .inl ⟨rfl, rfl⟩
    · cases h
  | false =>
    rw [hv, if_neg Bool.false_ne_true] at h
    rw [if_neg Bool.false_ne_true, h]
    exact .inr ⟨Value.kind?_of_coerce hv h, rfl⟩

theorem wants_of_coerce (h : t.coerce v = .error e) : e.Wants t.kind := by
  rw [coerce_eq] at h
  split at h
  · unfold onNull at h
    split at h
    · cases h
    · cases h
      exact ⟨rfl, by simp, by simp⟩
  · have hlands := Value.lands_coerce v t.kind
    rwa [h] at hlands

theorem wants_of_store (h : t.store v = .error e) : e.Wants t.kind := by
  cases hcoerce : t.coerce v with
  | error e' =>
    rw [store_of_coerce_error hcoerce] at h
    cases h
    exact wants_of_coerce hcoerce
  | ok w =>
    rcases store_of_coerce_ok hcoerce with ⟨-, hstore⟩ | ⟨hkind, hstore⟩
    · rw [hstore] at h
      cases h
    · rw [hstore] at h
      obtain ⟨width, i, hbase, -, -, rfl⟩ := (fit_base_eq_error_iff hkind).mp h
      refine ⟨?_, by simp, by simp⟩
      rw [← kind_base, hbase]
      rfl

/-- **Conversions land in the kind that is wanted,** by coercion as well as by reading. What a
field of any type refuses, it refuses for the sake of its kind, and never because a coerced value
turned out to have another one or because a day had no midnight. -/
theorem conversions_land :
    (∀ (v : Value) (k : Kind), Value.Lands v k (v.coerce k)) ∧
    (∀ (s : String) (k : Kind), Value.Lands (.text s) k (Value.parse s k)) ∧
    ∀ (t : FieldType) (v : Value) (e : CoercionError), t.store v = .error e → e.Wants t.kind :=
  ⟨Value.lands_coerce, Value.lands_parse, fun _ _ _ => wants_of_store⟩

/-- **Coercing decides about storing.** A value that cannot be coerced to the kind of a type is
not stored, for the same reason. Otherwise it is stored as its coerced form would be. This fails
just for integers out of the range of the type; what is stored is the coerced value itself,
unless the type is one of single precision. -/
theorem coerce_decides_store (t : FieldType) (v : Value) :
    (∀ e, t.coerce v = .error e → t.store v = .error e) ∧
    ∀ w, t.coerce v = .ok w →
      t.store v = t.store w ∧
      (∀ e, t.store v = .error e ↔ ∃ width i, t.base = int width ∧ w = .integer i ∧
        ¬ (width.low ≤ i.toInt ∧ i.toInt ≤ width.high) ∧
        e = ⟨w, .integer, .outOfRange width.name⟩) ∧
      (∀ u, t.store v = .ok u → t.base ≠ single → u = w) := by
  refine ⟨fun e => store_of_coerce_error, fun w h => ⟨store_of_coerce h, ?_⟩⟩
  rcases store_of_coerce_ok h with ⟨rfl, hstore⟩ | ⟨hkind, hstore⟩
  · rw [hstore]
    refine ⟨fun e => ⟨nofun, ?_⟩, ?_⟩
    · rintro ⟨width, i, -, hi, -⟩
      cases hi
    · rintro u hu -
      exact (Except.ok.inj hu).symm
  · rw [hstore]
    exact ⟨fun e => fit_base_eq_error_iff hkind, fun u hu ht => eq_of_fit_base hkind ht hu⟩

/-- A number past the last one of a byte is read from its text and then refused. -/
theorem byte_text_out_of_range :
    (option (int .u8)).coerce (.text " 256 ") = .ok (.integer 256) ∧
    (option (int .u8)).store (.text " 256 ") =
      .error ⟨.integer 256, .integer, .outOfRange "u8"⟩ := by
  have hcoerce : (option (int .u8)).coerce (.text " 256 ") = .ok (.integer 256) := by
    decide +kernel
  obtain ⟨-, hrefused, -⟩ := (coerce_decides_store _ _).2 _ hcoerce
  exact ⟨hcoerce, (hrefused _).mpr ⟨.u8, 256, rfl, rfl, by decide, rfl⟩⟩

end FieldType

end Wiring
