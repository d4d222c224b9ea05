import Wiring.Proofs.Record.Overlays

/-!
# Writing many values

A list of pairs is written in order, up to the first pair that the field of its name
refuses. Whether a field refuses a value does not depend on what the instance holds.
So the list falls into the pairs that are written and the rest, whatever it meets,
and what is written is an overlay: under each name the last pair counts.
-/

namespace Wiring

/-- The value of the last pair that has the name. -/
def lastValue? (pairs : List (String × Value)) (name : String) : Option Value :=
  pairs.reverse.lookup name

namespace Lineage

/-- Every pair with a declared name can be stored in the field of that name. -/
def Converts (l : Lineage) (pairs : List (String × Value)) : Prop :=
  ∀ p ∈ pairs, ∀ f, l.declared? p.1 = some f → ∃ w, f.type.store p.2 = .ok w

/-- The number of pairs that have a declared name, repeats counted. -/
def countKnown (l : Lineage) (pairs : List (String × Value)) : Nat :=
  pairs.countP fun p => (l.declared? p.1).isSome

end Lineage

/-! ## Pairs -/

section Pairs

variable {pairs other before after : List (String × Value)} {name : String} {v : Value}
  {l : Lineage}

theorem lastValue?_cons (name : String) (v : Value) (rest : List (String × Value)) :
    lastValue? ((name, v) :: rest) =
      fun other => (lastValue? rest other).or (if other = name then some v else none) := by
  funext other
  rw [lastValue?, List.reverse_cons, List.lookup_append, lookup_cons_pair, List.lookup_nil]
  rfl

/-- Among pairs with distinct names each one is the last of its name. -/
theorem Keyed.lastValue?_eq_some_iff (h : Keyed pairs) :
    lastValue? pairs name = some v ↔ (name, v) ∈ pairs := by
  have hreverse : Keyed pairs.reverse := by
    rw [Keyed, List.map_reverse]
    exact List.nodup_reverse.mpr h
  rw [lastValue?, ← hreverse.mem_iff, List.mem_reverse]

theorem lastValue?_eq_of_perm (h : pairs.Perm other) (hkeyed : Keyed pairs) :
    lastValue? pairs = lastValue? other := by
  have hother : Keyed other := (h.map _).nodup_iff.mp hkeyed
  funext name
  apply Option.ext
  intro v
  rw [hkeyed.lastValue?_eq_some_iff, hother.lastValue?_eq_some_iff, h.mem_iff]

namespace Lineage

theorem converts_nil : l.Converts [] :=
  fun _ hp => (List.not_mem_nil hp).elim

theorem Converts.of_perm (hconverts : l.Converts pairs) (h : pairs.Perm other) :
    l.Converts other :=
  fun p hp => hconverts p (h.mem_iff.mpr hp)

/-- A list that does not convert has a first pair that is refused. -/
theorem converts_or_refused (l : Lineage) (pairs : List (String × Value)) :
    l.Converts pairs ∨ ∃ before name v after f e, pairs = before ++ (name, v) :: after ∧
      l.Converts before ∧ l.declared? name = some f ∧ f.type.store v = .error e := by
  induction pairs with
  | nil => exact .inl converts_nil
  | cons p rest ih =>
    obtain ⟨name, v⟩ := p
    by_cases hhead : ∀ f, l.declared? name = some f → ∃ w, f.type.store v = .ok w
    · rcases ih with hrest | ⟨before, name', v', after, f, e, rfl, hbefore, hf, he⟩
      · exact .inl (List.forall_mem_cons.mpr ⟨hhead, hrest⟩)
      · exact .inr ⟨(name, v) :: before, name', v', after, f, e, rfl,
          List.forall_mem_cons.mpr ⟨hhead, hbefore⟩, hf, he⟩
    · push Not at hhead
      obtain ⟨f, hf, hrefused⟩ := hhead
      refine .inr ⟨[], name, v, rest, f, ?_⟩
      cases hstore : f.type.store v with
      | ok w => exact (hrefused w hstore).elim
      | error e => exact ⟨e, rfl, converts_nil, hf, rfl⟩

end Lineage

end Pairs

/-! ## Runs -/

/-- A run over two lists goes on with the second one where the first one ended well. -/
theorem Record.setValues_append {σ : Type} {r : Record σ} {d : Descriptor} {x y : σ}
    {before : List (String × Value)} {n : Nat} (h : r.setValues d x before = (.ok n, y))
    (after : List (String × Value)) :
    r.setValues d x (before ++ after) =
      ((r.setValues d y after).1.map (n + ·), (r.setValues d y after).2) := by
  induction before generalizing x n with
  | nil =>
    cases h
    rw [List.nil_append]
    generalize r.setValues d y after = rest
    rcases rest with ⟨e | m, z⟩ <;> simp [Except.map]
  | cons p before ih =>
    obtain ⟨name, v⟩ := p
    simp only [List.cons_append, setValues] at h ⊢
    split at h
    · rename_i hknown
      rw [if_pos hknown]
      cases hset : r.setValue d x name v with
      | error e =>
        rw [hset] at h
        cases h
      | ok z =>
        rw [hset] at h
        dsimp only at h ⊢
        rcases hrun : r.setValues d z before with ⟨e | m, u⟩
        · rw [hrun] at h
          cases h
        · rw [hrun] at h
          cases h
          rw [ih hrun]
          generalize r.setValues d u after = rest
          rcases rest with ⟨e | k, t⟩
          · rfl
          · simp [Except.map, Nat.add_right_comm]
    · rename_i hunknown
      rw [if_neg hunknown]
      exact ih h

namespace Lineage

variable {l : Lineage} {x y : Instance} {name : String} {v w : Value} {f : FieldDecl}
  {pairs : List (String × Value)}

/-! ## The first pair of a run -/

theorem setValues_undeclared (h : l.declared? name = none) (x : Instance) (v : Value) :
    l.record.setValues l.record.describe x ((name, v) :: pairs) =
      l.record.setValues l.record.describe x pairs := by
  rw [Record.setValues, contains_eq_isSome, h]
  rfl

theorem setValues_refused (hx : x.Fits l) (hf : l.declared? name = some f) {e : CoercionError}
    (he : f.type.store v = .error e) :
    l.record.setValues l.record.describe x ((name, v) :: pairs) =
      (.error (.coercion l.own.type name e), x) := by
  rw [Record.setValues, contains_eq_isSome, hf, hx.setValue_eq, hx.set_refused hf he]
  rfl

theorem setValues_stored (hx : x.Fits l) (hf : l.declared? name = some f)
    (hw : f.type.store v = .ok w) (rest : List (String × Value)) :
    ∃ y, y.Fits l ∧ x.Written name w y ∧
      l.record.setValues l.record.describe x ((name, v) :: rest) =
        ((l.record.setValues l.record.describe y rest).1.map (· + 1),
          (l.record.setValues l.record.describe y rest).2) := by
  obtain ⟨y, hset, hy, hwritten⟩ := hx.set_stored hf hw
  refine ⟨y, hy, hwritten, ?_⟩
  rw [Record.setValues, contains_eq_isSome, hf, hx.setValue_eq, hset]
  rfl

/-! ## Whole runs -/

/-- Pairs that convert are all written, and under each name the last one is there at
the end. The induction is on the pairs: each run lays the rest over its first write. -/
theorem setValues_of_converts (hx : x.Fits l) (h : l.Converts pairs) :
    ∃ y, l.record.setValues l.record.describe x pairs = (.ok (l.countKnown pairs), y) ∧
      x.Overlaid l (lastValue? pairs) y := by
  induction pairs generalizing x with
  | nil => exact ⟨x, rfl, .refl hx⟩
  | cons p rest ih =>
    obtain ⟨name, v⟩ := p
    obtain ⟨hhead, hrest⟩ := List.forall_mem_cons.mp h
    rw [lastValue?_cons]
    cases hf : l.declared? name with
    | none =>
      obtain ⟨y, hrun, hover⟩ := ih hx hrest
      refine ⟨y, ?_, ?_⟩
      · rw [setValues_undeclared hf, hrun, countKnown, countKnown,
          List.countP_cons_of_neg (by simp [hf])]
      · apply hover.congr hx
        intro other g hg
        have hne : other ≠ name := by
          rintro rfl
          rw [hf] at hg
          cases hg
        rw [if_neg hne, Option.or_none]
    | some f =>
      obtain ⟨w, hw⟩ := hhead f hf
      obtain ⟨y, hy, hwritten, hstep⟩ := setValues_stored hx hf hw rest
      obtain ⟨z, hrun, hover⟩ := ih hy hrest
      refine ⟨z, ?_, (Instance.Overlaid.of_written hy hf hw hwritten).trans hover⟩
      rw [hstep, hrun, countKnown, countKnown, List.countP_cons_of_pos (by simp [hf])]
      rfl

/-- What is written before a refused pair stays, and nothing after it is looked at. -/
theorem setValues_of_refused (hx : x.Fits l) {before : List (String × Value)}
    (hbefore : l.Converts before) (hf : l.declared? name = some f) {e : CoercionError}
    (he : f.type.store v = .error e) (after : List (String × Value)) :
    ∃ y, l.record.setValues l.record.describe x before = (.ok (l.countKnown before), y) ∧
      l.record.setValues l.record.describe x (before ++ (name, v) :: after) =
        (.error (.coercion l.own.type name e), y) := by
  obtain ⟨y, hrun, hover⟩ := setValues_of_converts hx hbefore
  refine ⟨y, hrun, ?_⟩
  rw [Record.setValues_append hrun, setValues_refused hover.fits hf he]
  rfl

theorem converts_of_setValues (hx : x.Fits l) {n : Nat}
    (h : l.record.setValues l.record.describe x pairs = (.ok n, y)) : l.Converts pairs := by
  rcases l.converts_or_refused pairs with
    hconverts | ⟨before, name, v, after, f, e, rfl, hbefore, hf, he⟩
  · exact hconverts
  · obtain ⟨z, -, hrun⟩ := setValues_of_refused hx hbefore hf he after
    rw [hrun] at h
    cases h

/-- A run that ends well has written every pair with a declared name. -/
theorem setValues_eq_ok_iff (hx : x.Fits l) {n : Nat} :
    l.record.setValues l.record.describe x pairs = (.ok n, y) ↔
      l.Converts pairs ∧ n = l.countKnown pairs ∧ x.Overlaid l (lastValue? pairs) y := by
  constructor
  · intro h
    have hconverts := converts_of_setValues hx h
    obtain ⟨z, hrun, hover⟩ := setValues_of_converts hx hconverts
    rw [hrun] at h
    cases h
    exact ⟨hconverts, rfl, hover⟩
  · rintro ⟨hconverts, rfl, hover⟩
    obtain ⟨z, hrun, hover'⟩ := setValues_of_converts hx hconverts
    rw [hrun, hover.unique hover']

theorem setValues_eq_of_perm (hx : x.Fits l) {other : List (String × Value)} {n : Nat}
    (h : l.record.setValues l.record.describe x pairs = (.ok n, y)) (hperm : pairs.Perm other)
    (hkeyed : Keyed pairs) : l.record.setValues l.record.describe x other = (.ok n, y) := by
  obtain ⟨hconverts, hcount, hover⟩ := (setValues_eq_ok_iff hx).mp h
  apply (setValues_eq_ok_iff hx).mpr
  refine ⟨hconverts.of_perm hperm, ?_, ?_⟩
  · rw [hcount, countKnown, countKnown, hperm.countP_eq]
  · rw [← lastValue?_eq_of_perm hperm hkeyed]
    exact hover

end Lineage

/-- **Writing many values.** A list of pairs is written just when every pair with a
declared name converts to the type of its field. Then the answer is the number of those
pairs, repeats counted, each field holds the conversion of the last pair that names it,
and nothing else has changed; so pairs with distinct names may come in any order.
Otherwise the error is that of the first pair with a declared name that does not convert,
and the instance is what the pairs before it alone make of it. -/
theorem bulk_write_spec {fields : TypeName → List Field} {i : Introspector} {l : Lineage}
    {x : Instance} (hi : i.Faithful fields) (hl : fields l.own.type = l.describe) (hx : x.Fits l)
    (pairs : List (String × Value)) :
    let write := fun pairs => (Introspector.setValues l.record x pairs i).1
    ((∃ n y, write pairs = (.ok n, y)) ↔ l.Converts pairs) ∧
    (∀ n y, write pairs = (.ok n, y) →
      n = l.countKnown pairs ∧ x.Overlaid l (lastValue? pairs) y ∧
      ∀ other, pairs.Perm other → Keyed pairs → write other = (.ok n, y)) ∧
    (∀ e y, write pairs = (.error e, y) →
      ∃ before name v after f why, pairs = before ++ (name, v) :: after ∧ l.Converts before ∧
        l.declared? name = some f ∧ f.type.store v = .error why ∧
        e = .coercion l.own.type name why ∧ write before = (.ok (l.countKnown before), y)) := by
  intro write
  have hwrite : write = fun pairs => l.record.setValues l.record.describe x pairs := by
    funext pairs
    exact Introspector.looked_of_faithful hi hl fun d => l.record.setValues d x pairs
  rw [hwrite]
  refine ⟨?_, ?_, ?_⟩
  · constructor
    · rintro ⟨n, y, hrun⟩
      exact Lineage.converts_of_setValues hx hrun
    · intro hconverts
      obtain ⟨y, hrun, -⟩ := Lineage.setValues_of_converts hx hconverts
      exact ⟨_, y, hrun⟩
  · intro n y hrun
    obtain ⟨-, hcount, hover⟩ := (Lineage.setValues_eq_ok_iff hx).mp hrun
    refine ⟨hcount, hover, ?_⟩
    intro other hperm hkeyed
    exact Lineage.setValues_eq_of_perm hx hrun hperm hkeyed
  · intro e y hrun
    rcases l.converts_or_refused pairs with
      hconverts | ⟨before, name, v, after, f, why, rfl, hbefore, hf, hwhy⟩
    · obtain ⟨z, hok, -⟩ := Lineage.setValues_of_converts hx hconverts
      dsimp only at hrun
      rw [hok] at hrun
      cases hrun
    · obtain ⟨z, hfirst, herror⟩ := Lineage.setValues_of_refused hx hbefore hf hwhy after
      dsimp only at hrun
      rw [herror] at hrun
      cases hrun
      exact ⟨before, name, v, after, f, why, rfl, hbefore, hf, hwhy, rfl, hfirst⟩

/-- Pairs for a badge, one of them for a field that it does not have. -/
def badgePairs : List (String × Value) :=
  [("level", .text " 7 "), ("room", .integer 3), ("title", .integer 12)]

/-- The pairs may come in any order; the level of one more is too large, and refused. -/
theorem badge_pairs_written :
    (∃ y, (Introspector.setValues badge.record badge.blank badgePairs {}).1 = (.ok 2, y) ∧
      (Introspector.setValues badge.record badge.blank badgePairs.reverse {}).1 = (.ok 2, y)) ∧
      ¬ badge.Converts (badgePairs ++ [("level", .integer 300)]) := by
  have hfaithful := Introspector.faithful_new fun _ => badge.describe
  obtain ⟨-, hdone, -⟩ := bulk_write_spec hfaithful rfl badge.blank_fits badgePairs
  obtain ⟨hok, -, -⟩ := bulk_write_spec hfaithful rfl badge.blank_fits
    (badgePairs ++ [("level", .integer 300)])
  constructor
  · obtain ⟨y, hrun⟩ : ∃ y, (Introspector.setValues badge.record badge.blank badgePairs {}).1 =
        (.ok 2, y) := ⟨_, rfl⟩
    obtain ⟨-, -, horder⟩ := hdone _ _ hrun
    exact ⟨y, hrun, horder _ (List.reverse_perm _).symm (by unfold Keyed; decide)⟩
  · intro hconverts
    obtain ⟨n, y, hrun⟩ := hok.mpr hconverts
    have hrefused : (Introspector.setValues badge.record badge.blank
        (badgePairs ++ [("level", .integer 300)]) {}).1.1.isOk = false := by
      decide
    dsimp only at hrun
    rw [hrun] at hrefused
    cases hrefused

end Wiring
