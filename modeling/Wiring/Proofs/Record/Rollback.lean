import Wiring.Proofs.Record.Fits
import Wiring.Record.Introspector

/-!
# Copies that fail

The values that a copy may have to put back are all read before the first
write. So after any written prefix the rollback takes each written name to what
it was at the start, and no other name has changed meanwhile. This needs little
of the accessors and nothing of the descriptor.
-/

namespace Wiring

namespace Record

variable {σ η : Type}

/-- What accessors promise about the valid instances of their type, where `hidden` is
what an instance holds beyond the reach of names. -/
structure Lawful (r : Record σ) (valid : σ → Prop) (hidden : σ → η) : Prop where
  /-- The same names can be read and written. -/
  known : ∀ {x name} v, valid x → (r.get x name).isSome = (r.set x name v).isSome
  /-- A write gives a valid instance. -/
  closed : ∀ {x name v y}, valid x → r.set x name v = some (.ok y) → valid y
  /-- A write does not disturb other names. -/
  apart : ∀ {x name v y other}, valid x → r.set x name v = some (.ok y) → other ≠ name →
    r.get y other = r.get x other
  /-- A write reaches nothing hidden. -/
  unseen : ∀ {x name v y}, valid x → r.set x name v = some (.ok y) → hidden y = hidden x
  /-- A value read under a name can be set back. -/
  restores : ∀ {x y name v}, valid x → valid y → r.get x name = some v →
    ∃ z, r.set y name v = some (.ok z) ∧ r.get z name = some v

/-- Every field is the same in both instances, hidden ones included. -/
structure Same (r : Record σ) (hidden : σ → η) (x y : σ) : Prop where
  reads : ∀ name, r.get y name = r.get x name
  hidden : hidden y = hidden x

/-- The instance differs from a former one under the names of written entries only, and
the entries remember what was there. -/
structure Dirty (r : Record σ) (valid : σ → Prop) (hidden : σ → η) (former : σ)
    (written : List Staged) (x : σ) : Prop where
  valid : valid x
  remembered : ∀ s ∈ written, r.get former s.name = some s.previous
  others : ∀ name, (∀ s ∈ written, s.name ≠ name) → r.get x name = r.get former name
  hidden : hidden x = hidden former

section Laws

variable {r : Record σ} {valid : σ → Prop} {hidden : σ → η} {d : Descriptor} {former x y : σ}
  {written : List Staged}

theorem set_of_setValue {name : String} {v : Value} (h : r.setValue d x name v = .ok y) :
    r.set x name v = some (.ok y) := by
  simp only [setValue] at h
  split at h
  · split at h
    · rename_i hset
      cases h
      exact hset
    · cases h
    · cases h
  · cases h

/-- Putting one entry back leaves one name less that differs. -/
theorem Dirty.put_back (laws : r.Lawful valid hidden) (hformer : valid former) {s : Staged}
    (h : r.Dirty valid hidden former (s :: written) x) :
    ∃ z, r.set x s.name s.previous = some (.ok z) ∧ r.Dirty valid hidden former written z := by
  have hprevious := h.remembered s (List.mem_cons_self ..)
  obtain ⟨z, hset, hget⟩ := laws.restores hformer h.valid hprevious
  refine ⟨z, hset, laws.closed h.valid hset, ?_, ?_, ?_⟩
  · intro t ht
    exact h.remembered t (List.mem_cons_of_mem _ ht)
  · intro name hname
    by_cases hs : name = s.name
    · subst hs
      rw [hget, hprevious]
    · rw [laws.apart h.valid hset hs]
      apply h.others
      intro t ht
      rcases List.mem_cons.mp ht with rfl | ht
      · exact fun heq => hs heq.symm
      · exact hname t ht
  · rw [laws.unseen h.valid hset, h.hidden]

theorem Dirty.start (hx : valid x) : r.Dirty valid hidden x [] x :=
  ⟨hx, fun _ hs => (List.not_mem_nil hs).elim, fun _ _ => rfl, rfl⟩

theorem Dirty.same (h : r.Dirty valid hidden former [] x) : r.Same hidden former x :=
  ⟨fun name => h.others name fun _ hs => (List.not_mem_nil hs).elim, h.hidden⟩

/-- **Rolling back.** Undoing what was written restores every field. -/
theorem undo_clean (laws : r.Lawful valid hidden) (hformer : valid former)
    (h : r.Dirty valid hidden former written x) :
    r.Dirty valid hidden former [] (r.undo x written) := by
  induction written generalizing x with
  | nil => exact h
  | cons s rest ih =>
    obtain ⟨z, hset, hz⟩ := h.put_back laws hformer
    rw [undo, hset]
    exact ih hz

/-- A write of an entry that remembers rightly leaves one name more that differs. -/
theorem Dirty.write (laws : r.Lawful valid hidden) {s : Staged}
    (h : r.Dirty valid hidden former written x)
    (hprevious : s.previous = (r.get former s.name).getD .null)
    (hset : r.set x s.name s.value = some (.ok y)) :
    r.Dirty valid hidden former (s :: written) y := by
  -- The accessors know the name now; either they knew it at the start, or it was written since.
  have hknown : (r.get former s.name).isSome := by
    by_cases hw : ∀ t ∈ written, t.name ≠ s.name
    · rw [← h.others s.name hw, laws.known s.value h.valid, hset]
      rfl
    · push Not at hw
      obtain ⟨t, ht, heq⟩ := hw
      rw [← heq, h.remembered t ht]
      rfl
  obtain ⟨v, hv⟩ := Option.isSome_iff_exists.mp hknown
  rw [hv, Option.getD_some] at hprevious
  refine ⟨laws.closed h.valid hset, ?_, ?_, ?_⟩
  · intro t ht
    rcases List.mem_cons.mp ht with rfl | ht
    · rw [hv, hprevious]
    · exact h.remembered t ht
  · intro name hname
    rw [laws.apart h.valid hset (hname s (List.mem_cons_self ..)).symm]
    exact h.others name fun t ht => hname t (List.mem_cons_of_mem _ ht)
  · rw [laws.unseen h.valid hset, h.hidden]

theorem write_error_clean (laws : r.Lawful valid hidden) (hformer : valid former)
    {staged : List Staged}
    (hstaged : ∀ s ∈ staged, s.previous = (r.get former s.name).getD .null)
    (h : r.Dirty valid hidden former written x) {e : AccessError} {y : σ}
    (hwrite : r.write d x written staged = (.error e, y)) :
    r.Dirty valid hidden former [] y := by
  induction staged generalizing x written with
  | nil => cases hwrite
  | cons s rest ih =>
    rw [Record.write] at hwrite
    split at hwrite
    · rename_i z hset
      have hz := h.write laws (hstaged s (List.mem_cons_self ..)) (set_of_setValue hset)
      exact ih (fun t ht => hstaged t (List.mem_cons_of_mem _ ht)) hz hwrite
    · cases hwrite
      exact undo_clean laws hformer h

/-- What is staged remembers what the target held when the copy began. -/
theorem previous_of_stage {mode : CopyMode} {source : String → Option Value} {fields : List Field}
    {staged : List Staged} (h : r.stage mode source x fields = .ok staged) :
    ∀ s ∈ staged, s.previous = (r.get x s.name).getD .null := by
  induction fields generalizing staged with
  | nil =>
    cases h
    intro s hs
    cases hs
  | cons f rest ih =>
    rw [stage] at h
    split at h
    · exact ih h
    · dsimp only at h
      split at h
      · split at h
        · cases hrest : r.stage mode source x rest with
          | error e => rw [hrest] at h; cases h
          | ok later =>
            rw [hrest] at h
            cases h
            intro s hs
            rcases List.mem_cons.mp hs with rfl | hs
            · rfl
            · exact ih hrest s hs
        · cases h
      · exact ih h

theorem copyFrom_error_clean (laws : r.Lawful valid hidden) (hx : valid x) {mode : CopyMode}
    {source : String → Option Value} {e : AccessError}
    (h : r.copyFrom d mode source x = (.error e, y)) : r.Dirty valid hidden x [] y := by
  rw [copyFrom] at h
  split at h
  · rename_i staged hstage
    exact write_error_clean laws hx (previous_of_stage hstage) (Dirty.start hx) h
  · cases h
    exact Dirty.start hx

end Laws

end Record

/-! ## Lineages -/

/-- The accessors of a lineage keep the laws, whatever its descriptor says. -/
theorem Lineage.record_lawful (l : Lineage) (fields : List Field) :
    Record.Lawful { l.record with fields } (·.Fits l) Instance.hidden where
  known {x name} v hx := by
    change (x.get name).isSome = (x.set name v).isSome
    rw [hx.get_isSome]
    cases hf : l.declared? name with
    | none =>
      rw [hx.set_undeclared hf v]
      rfl
    | some f =>
      cases hw : f.type.store v with
      | error e =>
        rw [hx.set_refused hf hw]
        rfl
      | ok w =>
        obtain ⟨y, hy, -, -⟩ := hx.set_stored hf hw
        rw [hy]
        rfl
  closed {x name v y} hx hset := by
    obtain ⟨f, w, -, -, hy, -⟩ := hx.declared_of_set hset
    exact hy
  apart {x name v y other} hx hset hne := by
    obtain ⟨f, w, -, -, -, hwritten⟩ := hx.declared_of_set hset
    exact hwritten.others other hne
  unseen {x name v y} hx hset := by
    obtain ⟨f, w, -, -, -, hwritten⟩ := hx.declared_of_set hset
    exact hwritten.hidden
  restores {x y name v} hx hy hget := by
    have hdeclared : (l.declared? name).isSome := by
      rw [← hx.get_isSome]
      rw [show x.get name = some v from hget]
      rfl
    obtain ⟨f, hf⟩ := Option.isSome_iff_exists.mp hdeclared
    obtain ⟨z, hset, -, hwritten⟩ := hy.set_stored hf (hx.store_get hf hget)
    exact ⟨z, hset, hwritten.value⟩

theorem Lineage.copyFrom_error_eq {l : Lineage} (fields : List Field) {d : Descriptor}
    {mode : CopyMode} {source : String → Option Value} {x y : Instance} {e : AccessError}
    (hx : x.Fits l)
    (h : Record.copyFrom { l.record with fields } d mode source x = (.error e, y)) : y = x := by
  have hclean := Record.copyFrom_error_clean (l.record_lawful fields) hx h
  exact hclean.valid.ext hx hclean.same.reads hclean.same.hidden

/-- **A copy is all or nothing.** If the accessors of the target keep their laws, then
after a copy that failed every field holds what it held before, whatever the source
answers and whatever the target's descriptor, new or remembered, says. The accessors of
every lineage keep the laws, and there the instance itself is what it was. -/
theorem copy_all_or_nothing :
    (∀ (σ η : Type) (r : Record σ) (valid : σ → Prop) (hidden : σ → η),
      r.Lawful valid hidden →
      ∀ (mode : CopyMode) (source : String → Option Value) (target result : σ)
        (i : Introspector) (e : AccessError),
        valid target →
        (Introspector.copyFrom r mode source target i).1 = (.error e, result) →
        valid result ∧ r.Same hidden target result) ∧
    (∀ (l : Lineage) (fields : List Field),
      Record.Lawful { l.record with fields } (·.Fits l) Instance.hidden) ∧
    (∀ (l : Lineage) (fields : List Field) (mode : CopyMode) (source : String → Option Value)
        (target result : Instance) (i : Introspector) (e : AccessError),
        target.Fits l →
        (Introspector.copyFrom { l.record with fields } mode source target i).1 =
          (.error e, result) →
        result = target) := by
  refine ⟨?_, Lineage.record_lawful, ?_⟩
  · intro σ η r valid hidden laws mode source target result i e htarget herror
    have hclean := Record.copyFrom_error_clean laws htarget herror
    exact ⟨hclean.valid, hclean.same⟩
  · intro l fields mode source target result i e htarget herror
    exact Lineage.copyFrom_error_eq fields htarget herror

/-- A badge hides the title that it takes over from its parent. -/
def badge : Lineage where
  own := ⟨⟨"office::Badge"⟩, [⟨"title", .text, []⟩, ⟨"level", .int .i8, []⟩]⟩
  ancestors := [⟨⟨"office::Entity"⟩, [⟨"title", .option .text, []⟩]⟩]

/-- The title is written before the level turns out to be too large. -/
theorem badge_copy_undone :
    ∃ e, (Introspector.copyFrom badge.record .all
        (fun name => if name = "title" then some (.text "chief") else some (.integer 300))
        badge.blank {}).1 = (.error e, badge.blank) ∧
      badge.record.Same Instance.hidden badge.blank badge.blank := by
  have hrun : (Introspector.copyFrom badge.record .all
      (fun name => if name = "title" then some (.text "chief") else some (.integer 300))
      badge.blank {}).1 =
        (.error (.coercion badge.own.type "level" ⟨.integer 300, .integer, .outOfRange "i8"⟩),
          badge.blank) := by
    decide
  refine ⟨_, hrun, ?_⟩
  exact (copy_all_or_nothing.1 _ _ _ _ _ (copy_all_or_nothing.2.1 badge badge.describe) _ _ _ _ _
    _ badge.blank_fits hrun).2

end Wiring
