import Mathlib.Data.Finset.Card
import Wiring.Proofs.Record.Memory

/-!
# Remembering cannot be seen in the answers

An introspector is asked any requests about the types of a program, forgetting
included. Apart from the identity of the objects, each answer is that of a new
introspector. An object is handed out again exactly until it is forgotten, and
the remembered types are those looked at since they were last forgotten.
-/

namespace Wiring.Introspector

/-- What an introspector can be asked about the types of a program. -/
inductive Request (p : Program)
  | descriptor (t : TypeName)
  | has (t : TypeName) (name : String)
  | field (t : TypeName) (name : String)
  /-- The marked fields of a description of the type that is at hand already. -/
  | markedIn (t : TypeName) (m : Mark)
  | fieldsMarked (t : TypeName) (m : Mark)
  | firstMarked (t : TypeName) (m : Mark)
  | fields (t : TypeName) (name : String) (marks : List Mark)
  | getValue (t : TypeName) (x : p.Object t) (name : String)
  | getValueAs (t : TypeName) (type : FieldType) (x : p.Object t) (name : String)
  | setValue (t : TypeName) (x : p.Object t) (name : String) (v : Value)
  | setValues (t : TypeName) (x : p.Object t) (pairs : List (String × Value))
  | copyFrom (t : TypeName) (mode : CopyMode) (source : String → Option Value)
      (target : p.Object t)
  | cloneFrom (t : TypeName) (blank primary : p.Object t) (others : List (String → Option Value))
  | toPairs (t : TypeName) (x : p.Object t)
  | keyed (t : TypeName) (key value : String) (items : List (p.Object t))
  | evict (t : TypeName)
  | clear
  | clearMarked

namespace Request

variable {p : Program}

def Answer : Request p → Type
  | descriptor _ => Stamped Descriptor
  | has .. => Bool
  | field .. => Option Field
  | markedIn .. => Stamped (List Field)
  | fieldsMarked .. => List Field
  | firstMarked .. => Option Field
  | fields .. => List Field
  | getValue .. => Except AccessError Value
  | getValueAs .. => Except AccessError Value
  | setValue t .. => Except AccessError (p.Object t)
  | setValues t .. => Except AccessError Nat × p.Object t
  | copyFrom t .. => Except AccessError Unit × p.Object t
  | cloneFrom t .. => Except AccessError (p.Object t)
  | toPairs .. => List (String × Value)
  | keyed .. => Except AccessError (List (String × Value))
  | evict _ => Bool
  | clear => Unit
  | clearMarked => Unit

def run : (q : Request p) → StateM Introspector q.Answer
  | descriptor t => Introspector.descriptor (p.record t)
  | has t name => Introspector.has (p.record t) name
  | field t name => field? (p.record t) name
  | markedIn t m => Introspector.markedIn (p.describe t) m
  | fieldsMarked t m => Introspector.fieldsMarked (p.record t) m
  | firstMarked t m => firstMarked? (p.record t) m
  | fields t name marks => Introspector.fields (p.record t) name marks
  | getValue t x name => Introspector.getValue (p.record t) x name
  | getValueAs t type x name => Introspector.getValueAs (p.record t) type x name
  | setValue t x name v => Introspector.setValue (p.record t) x name v
  | setValues t x pairs => Introspector.setValues (p.record t) x pairs
  | copyFrom t mode source target => Introspector.copyFrom (p.record t) mode source target
  | cloneFrom t blank primary others => Introspector.cloneFrom (p.record t) blank primary others
  | toPairs t x => Introspector.toPairs (p.record t) x
  | keyed t key value items => Introspector.keyed (p.record t) key value items
  | evict t => Introspector.evict t
  | clear => Introspector.clear
  | clearMarked => Introspector.clearMarked

/-- The answers are the same but for the identity of objects. Whether a type was remembered
is no part of this. -/
def Agrees : (q : Request p) → q.Answer → q.Answer → Prop
  | descriptor _, a, b => Stamped.content a = Stamped.content b
  | markedIn _ _, a, b => Stamped.content a = Stamped.content b
  | evict _, _, _ => True
  | _, a, b => a = b

/-- The type whose descriptor the request looks at. -/
def looks? : Request p → Option TypeName
  | descriptor t | has t _ | field t _ | fieldsMarked t _ | firstMarked t _ | fields t _ _
  | getValue t _ _ | getValueAs t _ _ _ | setValue t _ _ _ | setValues t _ _ | copyFrom t _ _ _
  | cloneFrom t _ _ _ | toPairs t _ => some t
  | keyed t _ _ items => if items.isEmpty then none else some t
  | markedIn _ _ | evict _ | clear | clearMarked => none

/-- The request makes what is remembered under the key go away. -/
def Forgets : Request p → Key → Prop
  | evict t, k => k = .type t
  | clear, k => ∃ t, k = .type t
  | clearMarked, k => ∃ t m, k = .marks t m
  | _, _ => False

theorem not_forgets_type_iff {q : Request p} {t : TypeName} :
    ¬ q.Forgets (.type t) ↔ q ≠ .evict t ∧ q ≠ .clear := by
  cases q <;> simp [Forgets, eq_comm]

theorem not_forgets_marks_iff {q : Request p} {t : TypeName} {m : Mark} :
    ¬ q.Forgets (.marks t m) ↔ q ≠ .clearMarked := by
  cases q <;> simp [Forgets]

/-! ## Requests as steps -/

/-- The lists of marked fields that the request asks for. -/
def gathers : Request p → List Step
  | markedIn t m | fieldsMarked t m | firstMarked t m => [.ask (.marks t m)]
  | fields t _ marks => marks.map fun m => .ask (.marks t m)
  | _ => []

def forgetting : Request p → List Step
  | evict t => [.evict t]
  | clear => [.clear]
  | clearMarked => [.clearMarked]
  | _ => []

def steps (q : Request p) : List Step :=
  q.looks?.toList.map (fun t => .ask (.type t)) ++ q.gathers ++ q.forgetting

theorem steps_of_forgets {q : Request p} {k : Key} (h : q.Forgets k) :
    q.looks? = none ∧ ∃ s : Step, q.steps = [s] ∧ s.Forgets k := by
  cases q with
  | evict t => exact ⟨rfl, .evict t, rfl, h⟩
  | clear => exact ⟨rfl, .clear, rfl, h⟩
  | clearMarked => exact ⟨rfl, .clearMarked, rfl, h⟩
  | _ => exact h.elim

theorem mem_steps_iff {q : Request p} {s : Step} :
    s ∈ q.steps ↔ (∃ t, q.looks? = some t ∧ s = .ask (.type t)) ∨
      s ∈ q.gathers ∨ s ∈ q.forgetting := by
  simp [steps, eq_comm]

theorem exists_mark_of_mem_gathers {q : Request p} {s : Step} (hs : s ∈ q.gathers) :
    ∃ t m, s = .ask (.marks t m) := by
  cases q with
  | markedIn t m | fieldsMarked t m | firstMarked t m => exact ⟨t, m, List.mem_singleton.mp hs⟩
  | fields t name marks =>
    obtain ⟨m, -, rfl⟩ := List.mem_map.mp hs
    exact ⟨t, m, rfl⟩
  | _ => exact (List.not_mem_nil hs).elim

theorem forgets_of_mem_forgetting {q : Request p} {s : Step} (hs : s ∈ q.forgetting) {k : Key} :
    s.Forgets k ↔ q.Forgets k := by
  cases q with
  | evict t | clear | clearMarked => rw [List.mem_singleton.mp hs]; exact Iff.rfl
  | _ => exact (List.not_mem_nil hs).elim

/-- A request forgets what its steps forget. -/
theorem exists_mem_steps_iff {q : Request p} {k : Key} :
    (∃ s ∈ q.steps, s.Forgets k) ↔ q.Forgets k := by
  constructor
  · rintro ⟨s, hs, hforgets⟩
    rcases mem_steps_iff.mp hs with ⟨t, -, rfl⟩ | hs | hs
    · exact hforgets.elim
    · obtain ⟨t, m, rfl⟩ := exists_mark_of_mem_gathers hs
      exact hforgets.elim
    · exact (forgets_of_mem_forgetting hs).mp hforgets
  · intro h
    obtain ⟨-, s, hsteps, hforgets⟩ := steps_of_forgets h
    exact ⟨s, hsteps ▸ List.mem_singleton_self s, hforgets⟩

theorem ask_type_mem_steps_iff {q : Request p} {t : TypeName} :
    .ask (.type t) ∈ q.steps ↔ q.looks? = some t := by
  constructor
  · intro hs
    rcases mem_steps_iff.mp hs with ⟨u, hlooks, hask⟩ | hs | hs
    · cases hask
      exact hlooks
    · obtain ⟨u, m, hask⟩ := exists_mark_of_mem_gathers hs
      cases hask
    · cases q <;> simp [forgetting] at hs
  · exact fun hlooks => mem_steps_iff.mpr (.inl ⟨t, hlooks, rfl⟩)

end Request

section

variable {p : Program} {i j : Introspector} (t : TypeName) (m : Mark)

theorem Sound.content_descriptor (h : Sound p i) :
    (descriptor (p.record t) i).1.content = p.describe t :=
  descriptor_content h.faithful (by rw [p.type_record])

theorem Sound.content_markedIn (h : Sound p i) :
    (markedIn (p.describe t) m i).1.content = (p.describe t).marked m := by
  cases hlookup : i.marked.lookup (t, m) with
  | none => rw [markedIn_of_absent p hlookup]
  | some fs =>
    rw [markedIn_of_lookup p hlookup]
    obtain ⟨before, rest, hsplit, -⟩ := List.lookup_eq_some_iff.mp hlookup
    have hmem : ((t, m), fs) ∈ i.marked := by
      rw [hsplit]
      exact List.mem_append_right _ (List.mem_cons_self ..)
    exact h.gathered _ hmem

/-- What a request makes of the descriptor alone does not show the memory. -/
theorem Sound.looked (h : Sound p i) {α : Type} (f : Descriptor → α) :
    (do let d ← descriptor (p.record t); return f d.content : StateM Introspector α) i =
      (f (p.describe t), (Step.ask (.type t)).apply p i) := by
  change (f (descriptor (p.record t) i).1.content, _) = _
  rw [h.content_descriptor]
  rfl

theorem Sound.fieldsMarked (h : Sound p i) :
    fieldsMarked (p.record t) m i =
      ((p.describe t).marked m, after p i [.ask (.type t), .ask (.marks t m)]) := by
  change ((markedIn (descriptor (p.record t) i).1.content m
      ((Step.ask (.type t)).apply p i)).1.content,
    (markedIn (descriptor (p.record t) i).1.content m ((Step.ask (.type t)).apply p i)).2) = _
  rw [h.content_descriptor, (h.apply (.ask (.type t))).content_markedIn]
  rfl

theorem Sound.addMarked (h : Sound p i) (known : List Field) (marks : List Mark) :
    addMarked (p.describe t) known marks i =
      (marks.foldl (fun known m => unionFields known ((p.describe t).marked m)) known,
        after p i (marks.map fun m => .ask (.marks t m))) := by
  induction marks generalizing i known with
  | nil => rfl
  | cons m rest ih =>
    change Introspector.addMarked (p.describe t)
      (unionFields known (markedIn (p.describe t) m i).1.content) rest
      ((Step.ask (.marks t m)).apply p i) = _
    rw [h.content_markedIn, ih (h.apply (.ask (.marks t m)))]
    rfl

theorem Sound.fields (h : Sound p i) (name : String) (marks : List Mark) :
    fields (p.record t) name marks i =
      (marks.foldl (fun known m => unionFields known ((p.describe t).marked m))
        (if name.isEmpty then [] else ((p.describe t).field? name).toList),
        after p i (.ask (.type t) :: marks.map fun m => .ask (.marks t m))) := by
  have hadd := (h.apply (.ask (.type t))).addMarked t
    (if name.isEmpty then [] else ((p.describe t).field? name).toList) marks
  rw [← h.content_descriptor t] at hadd ⊢
  exact hadd

end

section

variable {p : Program} {i j : Introspector}

theorem Sound.run_state (h : Sound p i) (q : Request p) :
    (q.run i).2 = after p i q.steps := by
  cases q with
  | fieldsMarked t m => exact congrArg Prod.snd (h.fieldsMarked t m)
  | firstMarked t m => exact congrArg Prod.snd (h.fieldsMarked t m)
  | fields t name marks =>
    have hsteps : (Request.fields t name marks : Request p).steps =
        .ask (.type t) :: marks.map fun m => .ask (.marks t m) := List.append_nil _
    rw [hsteps]
    exact congrArg Prod.snd (h.fields t name marks)
  | keyed t key value items =>
    cases items with
    | nil => rfl
    | cons x rest => rfl
  | descriptor t | has t | field t | markedIn t m | getValue t | getValueAs t | setValue t
  | setValues t | copyFrom t | cloneFrom t | toPairs t | evict t | clear | clearMarked => rfl

theorem Sound.agrees (hi : Sound p i) (hj : Sound p j) (q : Request p) :
    q.Agrees (q.run i).1 (q.run j).1 := by
  have looked : ∀ (t : TypeName) {α : Type} (f : Descriptor → α),
      ((do let d ← Introspector.descriptor (p.record t); return f d.content :
        StateM Introspector α) i).1 =
      ((do let d ← Introspector.descriptor (p.record t); return f d.content :
        StateM Introspector α) j).1 := fun t α f => by rw [hi.looked t f, hj.looked t f]
  have marks : ∀ t m, (Introspector.fieldsMarked (p.record t) m i).1 =
      (Introspector.fieldsMarked (p.record t) m j).1 := fun t m => by
    rw [hi.fieldsMarked t m, hj.fieldsMarked t m]
  cases q with
  | descriptor t => exact (hi.content_descriptor t).trans (hj.content_descriptor t).symm
  | markedIn t m => exact (hi.content_markedIn t m).trans (hj.content_markedIn t m).symm
  | fieldsMarked t m => exact marks t m
  | firstMarked t m => exact congrArg List.head? (marks t m)
  | fields t name marks =>
    exact (congrArg Prod.fst (hi.fields t name marks)).trans
      (congrArg Prod.fst (hj.fields t name marks)).symm
  | has t name => exact looked t fun d => d.contains name
  | field t name => exact looked t fun d => d.field? name
  | getValue t x name => exact looked t fun d => (p.record t).getValue d x name
  | getValueAs t type x name => exact looked t fun d => (p.record t).getValueAs d type x name
  | setValue t x name v => exact looked t fun d => (p.record t).setValue d x name v
  | setValues t x pairs => exact looked t fun d => (p.record t).setValues d x pairs
  | copyFrom t mode source target =>
    exact looked t fun d => (p.record t).copyFrom d mode source target
  | cloneFrom t blank primary others =>
    exact looked t fun d => (p.record t).cloneFrom d blank primary others
  | toPairs t x => exact looked t fun d => (p.record t).toPairs d x
  | keyed t key value items =>
    cases items with
    | nil => rfl
    | cons x rest => exact looked t fun d => (p.record t).keyed d key value (x :: rest)
  | evict t => trivial
  | clear | clearMarked => rfl

end

/-! ## Runs of requests -/

/-- The introspector after some requests, the first one first. -/
def askedFrom {p : Program} (i : Introspector) (qs : List (Request p)) : Introspector :=
  qs.foldl (fun i q => (q.run i).2) i

/-- A new introspector after some requests. -/
def asked {p : Program} (qs : List (Request p)) : Introspector :=
  askedFrom {} qs

/-- Some request looked at the type, and none after it made the type be forgotten. -/
def LookedUp {p : Program} (qs : List (Request p)) (t : TypeName) : Prop :=
  ∃ before q rest, qs = before ++ q :: rest ∧ q.looks? = some t ∧
    ∀ r ∈ rest, r ≠ .evict t ∧ r ≠ .clear

section

variable {p : Program} {i : Introspector} {t : TypeName} {m : Mark} {k : Key}

theorem asked_concat (qs : List (Request p)) (q : Request p) :
    asked (qs ++ [q]) = (q.run (asked qs)).2 :=
  List.foldl_concat ..

theorem asked_append_cons (qs : List (Request p)) (q : Request p) (rest : List (Request p)) :
    asked (qs ++ q :: rest) = askedFrom (q.run (asked qs)).2 rest :=
  List.foldl_append

theorem Sound.run (h : Sound p i) (q : Request p) : Sound p (q.run i).2 := by
  rw [h.run_state]
  exact sound_after h q.steps

theorem Sound.askedFrom_eq (h : Sound p i) (qs : List (Request p)) :
    askedFrom i qs = after p i (qs.flatMap Request.steps) := by
  induction qs generalizing i with
  | nil => rfl
  | cons q rest ih =>
    rw [List.flatMap_cons, after_append, ← h.run_state]
    exact ih (h.run q)

theorem sound_asked (qs : List (Request p)) : Sound p (asked qs) := by
  rw [asked, (sound_new p).askedFrom_eq]
  exact sound_after (sound_new p) _

/-- The object asked for before and after some requests is the same one just when none of them
makes it be forgotten. -/
theorem Sound.given_askedFrom_eq_iff (h : Sound p i) (k : Key) (qs : List (Request p)) :
    given p (askedFrom ((Step.ask k).apply p i) qs) k = given p i k ↔
      ∀ q ∈ qs, ¬ q.Forgets k := by
  rw [(h.apply _).askedFrom_eq, h.given_after_eq_iff]
  constructor
  · intro hkept q hq hforgets
    obtain ⟨s, hs, hs'⟩ := Request.exists_mem_steps_iff.mpr hforgets
    exact hkept s (List.mem_flatMap.mpr ⟨q, hq, hs⟩) hs'
  · intro hkept s hs hforgets
    obtain ⟨q, hq, hs⟩ := List.mem_flatMap.mp hs
    exact hkept q hq (Request.exists_mem_steps_iff.mp ⟨s, hs, hforgets⟩)

/-! ## The remembered types -/

theorem lookedUp_concat_iff {qs : List (Request p)} {q : Request p} :
    LookedUp (qs ++ [q]) t ↔
      q.looks? = some t ∨ (LookedUp qs t ∧ q ≠ .evict t ∧ q ≠ .clear) := by
  constructor
  · rintro ⟨before, r, rest, hsplit, hlooks, hkept⟩
    rcases List.eq_nil_or_concat' rest with rfl | ⟨rest, last, rfl⟩
    · obtain ⟨-, hlast⟩ := List.append_inj' hsplit rfl
      cases hlast
      exact .inl hlooks
    · rw [← List.cons_append, ← List.append_assoc] at hsplit
      obtain ⟨hinit, hlast⟩ := List.append_inj' hsplit rfl
      cases hlast
      exact .inr ⟨⟨before, r, rest, hinit, hlooks,
        fun s hs => hkept s (List.mem_append_left _ hs)⟩,
        hkept q (List.mem_append_right _ (List.mem_singleton_self q))⟩
  · rintro (hlooks | ⟨⟨before, r, rest, rfl, hlooks, hkept⟩, hlast⟩)
    · exact ⟨qs, q, [], rfl, hlooks, fun r hr => (List.not_mem_nil hr).elim⟩
    · refine ⟨before, r, rest ++ [q], by rw [List.append_assoc, List.cons_append], hlooks,
        fun s hs => ?_⟩
      rcases List.mem_append.mp hs with hs | hs
      · exact hkept s hs
      · rw [List.mem_singleton.mp hs]
        exact hlast

/-- A type is remembered after a request when the request looks at it, or when it was remembered
and is not forgotten. -/
theorem Sound.isSome_run_iff (h : Sound p i) (q : Request p) :
    ((q.run i).2.stamp? (.type t)).isSome ↔
      q.looks? = some t ∨ ((i.stamp? (.type t)).isSome ∧ q ≠ .evict t ∧ q ≠ .clear) := by
  rw [h.run_state, ← Request.not_forgets_type_iff]
  by_cases hforgets : q.Forgets (.type t)
  · obtain ⟨hlooks, s, hsteps, hs⟩ := Request.steps_of_forgets hforgets
    rw [hsteps, after_cons, after, List.foldl_nil, stamp?_apply_of_forgets hs, hlooks]
    simp only [Option.isSome_none, hforgets, not_true, and_false, or_false, reduceCtorEq,
      Bool.false_eq_true]
  · have hkept : ∀ s ∈ q.steps, ¬ s.Forgets (.type t) := fun s hs hs' =>
      hforgets (Request.exists_mem_steps_iff.mp ⟨s, hs, hs'⟩)
    rw [isSome_stamp?_after_iff hkept, Request.ask_type_mem_steps_iff]
    simp only [hforgets, not_false_eq_true, and_true]

theorem isSome_stamp?_asked_iff (qs : List (Request p)) :
    ((asked qs).stamp? (.type t)).isSome ↔ LookedUp qs t := by
  induction qs using List.reverseRecOn with
  | nil =>
    constructor
    · exact fun h => Bool.noConfusion h
    · rintro ⟨before, q, rest, hsplit, -⟩
      cases before <;> cases hsplit
  | append_singleton qs q ih =>
    rw [asked_concat, (sound_asked qs).isSome_run_iff, lookedUp_concat_iff, ih]

/-- The remembered types, each once, are those looked at since they were last forgotten. -/
theorem mem_keys_asked_iff (qs : List (Request p)) :
    t ∈ (asked qs).descriptors.map (·.1) ↔ LookedUp qs t := by
  rw [mem_keys_iff, ← isSome_stamp?_asked_iff, stamp?, Option.isSome_map]

theorem exists_lookedUp_types (qs : List (Request p)) :
    ∃ types : Finset TypeName, (∀ t, t ∈ types ↔ LookedUp qs t) ∧
      (asked qs).size = types.card := by
  refine ⟨((asked qs).descriptors.map (·.1)).toFinset, fun t => ?_, ?_⟩
  · rw [List.mem_toFinset, mem_keys_asked_iff]
  · rw [List.toFinset_card_of_nodup (sound_asked qs).keyed, List.length_map, size]

/-! ## What can be seen of the memory -/

/-- Whatever was asked before, each answer is that of a new introspector. All that shows is which
objects are the very same one, which types are remembered and how many. -/
theorem memory_is_invisible (p : Program) (qs : List (Request p)) :
    (∀ q : Request p, q.Agrees (q.run (asked qs)).1 (q.run {}).1) ∧
    (∀ t m,
      ((.markedIn t m : Request p).run (asked qs)).1.content =
        (p.describe t).fields.filter (·.hasMark m) ∧
      ((.fieldsMarked t m : Request p).run (asked qs)).1 =
        (p.describe t).fields.filter (·.hasMark m) ∧
      ((.firstMarked t m : Request p).run (asked qs)).1 =
        ((p.describe t).fields.filter (·.hasMark m)).head?) ∧
    (∀ t between,
      ((.descriptor t : Request p).run (asked (qs ++ .descriptor t :: between))).1.stamp =
        ((.descriptor t : Request p).run (asked qs)).1.stamp ↔
      ∀ q ∈ between, q ≠ .evict t ∧ q ≠ .clear) ∧
    (∀ t m between,
      ((.markedIn t m : Request p).run (asked (qs ++ .markedIn t m :: between))).1.stamp =
        ((.markedIn t m : Request p).run (asked qs)).1.stamp ↔
      .clearMarked ∉ between) ∧
    (∃ types : Finset TypeName, (∀ t, t ∈ types ↔ LookedUp qs t) ∧
      (asked qs).size = types.card) ∧
    ∀ t, ((.evict t : Request p).run (asked qs)).1 = true ↔ LookedUp qs t := by
  have hsound := sound_asked qs
  refine ⟨fun q => hsound.agrees (sound_new p) q, fun t m => ?_, fun t between => ?_,
    fun t m between => ?_, exists_lookedUp_types qs, fun t => ?_⟩
  · have hmarked := congrArg Prod.fst (hsound.fieldsMarked t m)
    exact ⟨hsound.content_markedIn t m, hmarked, congrArg List.head? hmarked⟩
  · rw [asked_append_cons]
    refine (hsound.given_askedFrom_eq_iff (.type t) between).trans ?_
    simp only [Request.not_forgets_type_iff]
  · rw [asked_append_cons]
    refine (hsound.given_askedFrom_eq_iff (.marks t m) between).trans ?_
    simp only [Request.not_forgets_marks_iff]
    exact ⟨fun h hclear => h _ hclear rfl, fun h q hq hclear => h (hclear ▸ hq)⟩
  · rw [← isSome_stamp?_asked_iff, stamp?, Option.isSome_map]
    rfl

end

/-! A guest who is forgotten, and a host who was looked at for a mark. -/

def host : TypeName := ⟨"inn::Host"⟩

def guest : TypeName := ⟨"inn::Guest"⟩

def key : Mark := ⟨⟨"inn::Key"⟩⟩

def inn : Program :=
  .ofLineages (fun t => ⟨⟨t, [⟨"name", .text, []⟩, ⟨"number", .int .i64, [key]⟩]⟩, []⟩)
    fun _ => rfl

def visits : List (Request inn) :=
  [.descriptor guest, .fieldsMarked host key, .evict guest]

theorem host_remembered :
    ((.firstMarked host key : Request inn).run (asked visits)).1 =
      some ⟨"number", host, .int .i64, [key]⟩ ∧
    ((.evict host : Request inn).run (asked visits)).1 = true := by
  obtain ⟨-, hmarked, -, -, -, hevict⟩ := memory_is_invisible inn visits
  have hlooked : LookedUp visits host := by
    refine ⟨[.descriptor guest], .fieldsMarked host key, [.evict guest], rfl, rfl, fun r hr => ?_⟩
    rw [List.mem_singleton.mp hr]
    exact ⟨fun h => absurd (Request.evict.inj h) (by decide), nofun⟩
  exact ⟨(hmarked host key).2.2.trans rfl, (hevict host).mpr hlooked⟩

end Wiring.Introspector
