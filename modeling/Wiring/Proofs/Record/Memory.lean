import Wiring.Proofs.Container.Entries
import Wiring.Proofs.Record.Remembering

/-!
# The memory of an introspector, step by step

An introspector remembers two kinds of objects: descriptors by type, and lists
of marked fields by type and mark. Whatever it is asked, its memory changes by
steps that ask for an object or forget some. What is remembered is right and
stays the same object until it is forgotten; what is made after that is a new
object, told apart by its stamp.
-/

namespace Wiring

/-- The record types of a program, one for each name. -/
structure Program where
  Object : TypeName → Type
  record : (t : TypeName) → Record (Object t)
  type_record : ∀ t, (record t).type = t

/-- The description that a program gives of a type. -/
def Program.describe (p : Program) (t : TypeName) : Descriptor :=
  (p.record t).describe

theorem Program.type_describe (p : Program) (t : TypeName) : (p.describe t).type = t :=
  p.type_record t

/-- The record types that lineages declare. -/
def Program.ofLineages (lineage : TypeName → Lineage) (h : ∀ t, (lineage t).own.type = t) :
    Program where
  Object _ := Instance
  record t := (lineage t).record
  type_record := h

theorem lookup_concat_of_absent {κ β : Type} [BEq κ] [LawfulBEq κ] [DecidableEq κ]
    {entries : List (κ × β)} {k : κ} (h : entries.lookup k = none) (v : β) (k' : κ) :
    (entries ++ [(k, v)]).lookup k' = if k' = k then some v else entries.lookup k' := by
  rw [List.lookup_append, List.lookup_cons, List.lookup_nil]
  by_cases hk : k' = k
  · rw [if_pos hk, hk, h, beq_self_eq_true, Option.none_or]
  · rw [if_neg hk, beq_false_of_ne hk, Option.or_none]

namespace Introspector

/-- What an object is remembered under. -/
inductive Key
  | type (t : TypeName)
  | marks (t : TypeName) (m : Mark)
deriving DecidableEq

inductive Step
  | ask (k : Key)
  | evict (t : TypeName)
  | clear
  | clearMarked

/-- The step makes what is remembered under the key go away. -/
def Step.Forgets : Step → Key → Prop
  | ask _, _ => False
  | evict t, k => k = .type t
  | clear, k => ∃ t, k = .type t
  | clearMarked, k => ∃ t m, k = .marks t m

variable (p : Program) (i : Introspector)

def Step.apply : Step → Introspector
  | ask (.type t) => (descriptor (p.record t) i).2
  | ask (.marks t m) => (markedIn (p.describe t) m i).2
  | evict t => (Introspector.evict t i).2
  | clear => (Introspector.clear i).2
  | clearMarked => (Introspector.clearMarked i).2

def after (steps : List Step) : Introspector :=
  steps.foldl (fun i s => s.apply p i) i

/-- The stamp of the object that is remembered under a key. -/
def stamp? : Key → Option Nat
  | .type t => (i.descriptors.lookup t).map (·.stamp)
  | .marks t m => (i.marked.lookup (t, m)).map (·.stamp)

/-- The stamp of the object that is handed out when it is asked for. -/
def given : Key → Nat
  | .type t => (descriptor (p.record t) i).1.stamp
  | .marks t m => (markedIn (p.describe t) m i).1.stamp

/-! ## Asking for an object -/

section

variable {i} {t : TypeName} {m : Mark}

theorem descriptor_of_lookup {d : Stamped Descriptor} (h : i.descriptors.lookup t = some d) :
    descriptor (p.record t) i = (d, i) := by
  rw [descriptor, p.type_record, h]

theorem descriptor_of_absent (h : i.descriptors.lookup t = none) :
    descriptor (p.record t) i = (⟨i.next, p.describe t⟩, { i with
      descriptors := i.descriptors ++ [(t, ⟨i.next, p.describe t⟩)], next := i.next + 1 }) := by
  rw [descriptor, p.type_record, h]
  rfl

theorem markedIn_of_lookup {fs : Stamped (List Field)}
    (h : i.marked.lookup (t, m) = some fs) : markedIn (p.describe t) m i = (fs, i) := by
  rw [markedIn, p.type_describe, h]

theorem markedIn_of_absent (h : i.marked.lookup (t, m) = none) :
    markedIn (p.describe t) m i = (⟨i.next, (p.describe t).marked m⟩, { i with
      marked := i.marked ++ [((t, m), ⟨i.next, (p.describe t).marked m⟩)],
      next := i.next + 1 }) := by
  rw [markedIn, p.type_describe, h]

end

/-- An object is handed out as it is remembered, or with the next stamp. -/
theorem given_eq (k : Key) : given p i k = (i.stamp? k).getD i.next := by
  cases k with
  | type t =>
    cases h : i.descriptors.lookup t with
    | some d => simp only [given, stamp?, descriptor_of_lookup p h, h, Option.map_some,
        Option.getD_some]
    | none => simp only [given, stamp?, descriptor_of_absent p h, h, Option.map_none,
        Option.getD_none]
  | marks t m =>
    cases h : i.marked.lookup (t, m) with
    | some fs => simp only [given, stamp?, markedIn_of_lookup p h, h, Option.map_some,
        Option.getD_some]
    | none => simp only [given, stamp?, markedIn_of_absent p h, h, Option.map_none,
        Option.getD_none]

/-- What was asked for is remembered, and nothing else is touched. -/
theorem stamp?_ask (k k' : Key) : ((Step.ask k').apply p i).stamp? k =
    if k = k' then some (given p i k') else i.stamp? k := by
  cases k' with
  | type u =>
    cases h : i.descriptors.lookup u with
    | some d =>
      rw [Step.apply, descriptor_of_lookup p h]
      split
      · rename_i hk
        rw [hk, given_eq, stamp?, h]
        rfl
      · rfl
    | none =>
      rw [Step.apply, given, descriptor_of_absent p h]
      cases k with
      | type t =>
        simp only [stamp?, lookup_concat_of_absent h, Key.type.injEq]
        split <;> rfl
      | marks t m => rfl
  | marks u m =>
    cases h : i.marked.lookup (u, m) with
    | some fs =>
      rw [Step.apply, markedIn_of_lookup p h]
      split
      · rename_i hk
        rw [hk, given_eq, stamp?, h]
        rfl
      · rfl
    | none =>
      rw [Step.apply, given, markedIn_of_absent p h]
      cases k with
      | type t => rfl
      | marks t m' =>
        simp only [stamp?, lookup_concat_of_absent h, Prod.mk.injEq, Key.marks.injEq]
        split <;> rfl

theorem lookup_evict (t u : TypeName) :
    ((Step.evict u).apply p i).descriptors.lookup t =
      if t = u then none else i.descriptors.lookup t :=
  lookup_eraseAt u t i.descriptors

theorem next_le_apply (s : Step) : i.next ≤ (s.apply p i).next := by
  cases s with
  | ask k =>
    cases k with
    | type t =>
      simp only [Step.apply, descriptor]
      split
      · exact Nat.le_refl _
      · exact Nat.le_succ _
    | marks t m =>
      simp only [Step.apply, markedIn]
      split
      · exact Nat.le_refl _
      · exact Nat.le_succ _
  | evict t | clear | clearMarked => exact Nat.le_refl _

/-! ## Objects stay until they are forgotten -/

section

variable {p i} {k : Key} {n : Nat}

theorem stamp?_apply_of_forgets {s : Step} (h : s.Forgets k) :
    (s.apply p i).stamp? k = none := by
  cases s with
  | ask k' => exact h.elim
  | evict t =>
    cases h
    rw [stamp?, lookup_evict, if_pos rfl, Option.map_none]
  | clear =>
    obtain ⟨t, rfl⟩ := h
    rfl
  | clearMarked =>
    obtain ⟨t, m, rfl⟩ := h
    rfl

theorem stamp?_apply_of_keeps {s : Step} (h : ¬ s.Forgets k) (hs : s ≠ .ask k) :
    (s.apply p i).stamp? k = i.stamp? k := by
  cases s with
  | ask k' =>
    rw [stamp?_ask, if_neg]
    rintro rfl
    exact hs rfl
  | evict t =>
    cases k with
    | type u =>
      have hne : u ≠ t := fun hut => h (congrArg Key.type hut)
      rw [stamp?, stamp?, lookup_evict, if_neg hne]
    | marks u m => rfl
  | clear =>
    cases k with
    | type u => exact absurd ⟨u, rfl⟩ h
    | marks u m => rfl
  | clearMarked =>
    cases k with
    | type u => rfl
    | marks u m => exact absurd ⟨u, m, rfl⟩ h

/-- What is remembered after a step was asked for by it, or was there before and is kept. -/
theorem isSome_stamp?_apply_iff (s : Step) : ((s.apply p i).stamp? k).isSome ↔
    s = .ask k ∨ ((i.stamp? k).isSome ∧ ¬ s.Forgets k) := by
  by_cases hask : s = .ask k
  · rw [hask, stamp?_ask, if_pos rfl]
    exact ⟨fun _ => .inl rfl, fun _ => rfl⟩
  by_cases hforgets : s.Forgets k
  · rw [stamp?_apply_of_forgets hforgets]
    simp only [Option.isSome_none, hask, hforgets, not_true, and_false, or_self,
      Bool.false_eq_true]
  · rw [stamp?_apply_of_keeps hforgets hask]
    simp only [hask, hforgets, not_false_eq_true, and_true, false_or]

theorem stamp?_apply_of_some {s : Step} (h : i.stamp? k = some n) (hs : ¬ s.Forgets k) :
    (s.apply p i).stamp? k = some n := by
  by_cases hask : s = .ask k
  · rw [hask, stamp?_ask, if_pos rfl, given_eq, h, Option.getD_some]
  · rw [stamp?_apply_of_keeps hs hask, h]

/-- Nothing under the key was made before the stamp `n` was next. -/
def NewFrom (n : Nat) (k : Key) (i : Introspector) : Prop :=
  n ≤ i.next ∧ ∀ stamp, i.stamp? k = some stamp → n ≤ stamp

theorem newFrom_of_none (h : i.stamp? k = none) : NewFrom i.next k i :=
  ⟨Nat.le_refl _, fun stamp hstamp => by rw [h] at hstamp; cases hstamp⟩

theorem NewFrom.le_given (h : NewFrom n k i) : n ≤ given p i k := by
  rw [given_eq]
  cases hstamp : i.stamp? k with
  | none => exact h.1
  | some stamp => exact h.2 stamp hstamp

theorem NewFrom.apply (h : NewFrom n k i) (s : Step) : NewFrom n k (s.apply p i) := by
  refine ⟨Nat.le_trans h.1 (next_le_apply p i s), fun stamp hstamp => ?_⟩
  by_cases hforgets : s.Forgets k
  · rw [stamp?_apply_of_forgets hforgets] at hstamp
    cases hstamp
  by_cases hask : s = .ask k
  · rw [hask, stamp?_ask, if_pos rfl] at hstamp
    cases hstamp
    exact h.le_given
  · rw [stamp?_apply_of_keeps hforgets hask] at hstamp
    exact h.2 stamp hstamp

theorem after_cons (s : Step) (steps : List Step) :
    after p i (s :: steps) = after p (s.apply p i) steps :=
  rfl

theorem after_append (steps rest : List Step) :
    after p i (steps ++ rest) = after p (after p i steps) rest :=
  List.foldl_append

theorem next_le_after (steps : List Step) : i.next ≤ (after p i steps).next := by
  induction steps generalizing i with
  | nil => exact Nat.le_refl _
  | cons s rest ih => exact Nat.le_trans (next_le_apply p i s) ih

theorem stamp?_after_of_some {steps : List Step} (h : i.stamp? k = some n)
    (hsteps : ∀ s ∈ steps, ¬ s.Forgets k) : (after p i steps).stamp? k = some n := by
  induction steps generalizing i with
  | nil => exact h
  | cons s rest ih =>
    rw [List.forall_mem_cons] at hsteps
    exact ih (stamp?_apply_of_some h hsteps.1) hsteps.2

theorem isSome_stamp?_after_iff {steps : List Step} (hsteps : ∀ s ∈ steps, ¬ s.Forgets k) :
    ((after p i steps).stamp? k).isSome ↔ .ask k ∈ steps ∨ (i.stamp? k).isSome := by
  induction steps generalizing i with
  | nil => simp only [after, List.foldl_nil, List.not_mem_nil, false_or]
  | cons s rest ih =>
    rw [List.forall_mem_cons] at hsteps
    rw [after_cons, ih hsteps.2, isSome_stamp?_apply_iff, List.mem_cons, eq_comm]
    simp only [hsteps.1, not_false_eq_true, and_true]
    tauto

theorem newFrom_after (h : NewFrom n k i) (steps : List Step) :
    NewFrom n k (after p i steps) := by
  induction steps generalizing i with
  | nil => exact h
  | cons s rest ih => exact ih (h.apply s)

end

/-! ## What is remembered is right -/

/-- Everything remembered is what would be made anew, no type is remembered twice, and every
stamp has been given out. -/
structure Sound : Prop where
  faithful : i.Faithful fun t => (p.record t).fields
  gathered : ∀ e ∈ i.marked, e.2.content = (p.describe e.1.1).marked e.1.2
  keyed : Keyed i.descriptors
  stamps : ∀ k n, i.stamp? k = some n → n < i.next

theorem sound_new : Sound p {} where
  faithful := faithful_new _
  gathered _ he := (List.not_mem_nil he).elim
  keyed := List.nodup_nil
  stamps k _ h := by cases k <;> cases h

section

variable {p i}

theorem Sound.given_lt (h : Sound p i) (k : Key) :
    given p i k < ((Step.ask k).apply p i).next := by
  cases hk : i.stamp? k with
  | some n =>
    rw [given_eq, hk]
    exact Nat.lt_of_lt_of_le (h.stamps k n hk) (next_le_apply p i _)
  | none =>
    rw [given_eq, hk]
    cases k with
    | type t =>
      rw [Step.apply, descriptor_of_absent p (Option.map_eq_none_iff.mp hk)]
      exact Nat.lt_succ_self _
    | marks t m =>
      rw [Step.apply, markedIn_of_absent p (Option.map_eq_none_iff.mp hk)]
      exact Nat.lt_succ_self _

theorem Sound.stamps_apply (h : Sound p i) (s : Step) (k : Key) (n : Nat)
    (hn : (s.apply p i).stamp? k = some n) : n < (s.apply p i).next := by
  by_cases hforgets : s.Forgets k
  · rw [stamp?_apply_of_forgets hforgets] at hn
    cases hn
  by_cases hask : s = .ask k
  · subst hask
    rw [stamp?_ask, if_pos rfl] at hn
    cases hn
    exact h.given_lt k
  · rw [stamp?_apply_of_keeps hforgets hask] at hn
    exact Nat.lt_of_lt_of_le (h.stamps k n hn) (next_le_apply p i s)

theorem Sound.ask_type (h : Sound p i) (t : TypeName) :
    Sound p ((Step.ask (.type t)).apply p i) := by
  have hfaithful := h.faithful.descriptor (r := p.record t) (by rw [p.type_record])
  refine ⟨hfaithful, ?_, ?_, h.stamps_apply _⟩
  · cases hlookup : i.descriptors.lookup t with
    | some d => rw [Step.apply, descriptor_of_lookup p hlookup]; exact h.gathered
    | none => rw [Step.apply, descriptor_of_absent p hlookup]; exact h.gathered
  · cases hlookup : i.descriptors.lookup t with
    | some d => rw [Step.apply, descriptor_of_lookup p hlookup]; exact h.keyed
    | none =>
      have hfresh : t ∉ i.descriptors.map (·.1) := by
        rw [mem_keys_iff, hlookup]
        exact Bool.noConfusion
      rw [Step.apply, descriptor_of_absent p hlookup]
      simp only [Keyed, List.map_append, List.map_cons, List.map_nil]
      refine List.nodup_append.mpr ⟨h.keyed, List.nodup_singleton _, fun a ha b hb => ?_⟩
      rw [List.mem_singleton.mp hb]
      rintro rfl
      exact hfresh ha

theorem Sound.ask_marks (h : Sound p i) (t : TypeName) (m : Mark) :
    Sound p ((Step.ask (.marks t m)).apply p i) := by
  have hdescriptors : ((Step.ask (.marks t m)).apply p i).descriptors = i.descriptors := by
    rw [Step.apply, markedIn]
    split <;> rfl
  refine ⟨h.faithful.markedIn _ m, ?_, hdescriptors ▸ h.keyed, h.stamps_apply _⟩
  cases hlookup : i.marked.lookup (t, m) with
  | some fs => rw [Step.apply, markedIn_of_lookup p hlookup]; exact h.gathered
  | none =>
    rw [Step.apply, markedIn_of_absent p hlookup]
    intro e he
    rcases List.mem_append.mp he with he | he
    · exact h.gathered e he
    · rw [List.mem_singleton.mp he]

theorem Sound.apply (h : Sound p i) (s : Step) : Sound p (s.apply p i) := by
  have hstamps := h.stamps_apply s
  cases s with
  | ask k =>
    cases k with
    | type t => exact h.ask_type t
    | marks t m => exact h.ask_marks t m
  | evict t => exact ⟨h.faithful.evict t, h.gathered, h.keyed.eraseAt t, hstamps⟩
  | clear => exact ⟨.clear _ i, h.gathered, List.nodup_nil, hstamps⟩
  | clearMarked =>
    exact ⟨h.faithful, fun _ he => (List.not_mem_nil he).elim, h.keyed, hstamps⟩

theorem sound_after (h : Sound p i) (steps : List Step) : Sound p (after p i steps) := by
  induction steps generalizing i with
  | nil => exact h
  | cons s rest ih => exact ih (h.apply s)

/-- An object that is asked for twice is the same one just when it was not forgotten meanwhile. -/
theorem Sound.given_after_eq_iff (h : Sound p i) (k : Key) (steps : List Step) :
    given p (after p ((Step.ask k).apply p i) steps) k = given p i k ↔
      ∀ s ∈ steps, ¬ s.Forgets k := by
  constructor
  · rintro hsame s hs hforgets
    obtain ⟨before, rest, rfl⟩ := List.append_of_mem hs
    have hnew : NewFrom (after p ((Step.ask k).apply p i) (before ++ [s])).next k
        (after p ((Step.ask k).apply p i) (before ++ [s])) := by
      refine newFrom_of_none ?_
      rw [after_append]
      exact stamp?_apply_of_forgets hforgets
    have hle := (newFrom_after (p := p) hnew rest).le_given (p := p)
    rw [← after_append, List.append_assoc, List.singleton_append, hsame] at hle
    exact absurd (Nat.lt_of_lt_of_le (h.given_lt k) (Nat.le_trans (next_le_after _) hle))
      (Nat.lt_irrefl _)
  · intro hkept
    have hasked : ((Step.ask k).apply p i).stamp? k = some (given p i k) := by
      rw [stamp?_ask, if_pos rfl]
    rw [given_eq, stamp?_after_of_some hasked hkept, Option.getD_some]

end

end Introspector

end Wiring
