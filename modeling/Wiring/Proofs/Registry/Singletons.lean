import Wiring.Proofs.Registry.Histories

/-!
# One instance per type

What is kept for a type stays until the cache is cleared, and an instance that a
call gives is the one kept. So calls without a clearing between them give one
instance. The container may hold another one meanwhile; it is asked only while
none is kept, and then it is the container that was bound.
-/

namespace Wiring

open World

variable {α ω : Type}

/-! ## Lawful slices -/

theorem eq_of_given? {o : Option (Reply α)} {a : α} (h : given? o = some a) :
    o = some (.ok (some a)) := by
  rcases o with _ | e | _ | b
  · cases h
  · cases h
  · cases h
  · cases h
    rfl

theorem Request.Wants.type?_eq {type : TypeName} {q : Request α ω} (h : q.Wants type) :
    q.type? = some type := by
  rcases h with rfl | rfl <;> rfl

theorem Request.Registers.type?_eq {type : TypeName} {q : Request α ω} (h : q.Registers type) :
    q.type? = some type := by
  cases q with
  | register b | registerNamed name b => exact congrArg some h
  | registerWith r blank content fields => exact congrArg some h
  | bind | of | get | add | clearCache => exact h.elim

theorem Container.lookup_noted {c : Container α ω} {type : TypeName} {found : Option (Bean α)}
    {s t : Noted α ω} (h : c.noted.lookup type s = (found, t)) :
    (c.lookup type s.1).1 = found ∧ t.2 = s.2 ++ [.lookup c type found] := by
  cases h
  exact ⟨rfl, rfl⟩

theorem Container.register_noted {c : Container α ω} {r : Registration α}
    {done : Except ContextError Unit} {s t : Noted α ω} (h : c.noted.register r s = (done, t)) :
    t.2 = s.2 ++ [.register c r done] := by
  cases h
  rfl

theorem Container.noted_injective {c d : Container α ω} (h : c.noted = d.noted) : c = d := by
  by_cases hω : Nonempty ω
  · obtain ⟨o⟩ := hω
    have hnotes : [Access.lookup c ⟨""⟩ (c.lookup ⟨""⟩ o).1] =
        [.lookup d ⟨""⟩ (d.lookup ⟨""⟩ o).1] :=
      congrArg (fun e : Container α (Noted α ω) => (e.lookup ⟨""⟩ (o, [])).2.2) h
    exact (Access.lookup.inj (List.cons.inj hnotes).1).1
  · -- Without surroundings there is nothing to tell containers apart.
    obtain ⟨lookup, register, contains, property⟩ := c
    obtain ⟨lookup', register', contains', property'⟩ := d
    congr <;> (funext _ o; exact absurd ⟨o⟩ hω)

section Accesses

variable {type : TypeName} {r : Registration α} {start u : World α (Noted α ω)} {given : Option α}

theorem Found.accesses_cases (h : Found type start given u) (hsilent : start.around.2 = [])
    (hnoting : start.Noting) :
    u.around.2 = [] ∨ ∃ c found, u.around.2 = [.lookup c type found] ∧
      start.bound = some c.noted ∧ (c.lookup type start.around.1).1 = found := by
  cases h with
  | idle quiet _ => exact .inl (by rw [quiet.around, hsilent])
  | absent bound looked _ _ | found bound looked _ _ =>
    obtain ⟨c, rfl⟩ := hnoting _ bound
    obtain ⟨hfound, hnotes⟩ := Container.lookup_noted looked
    rw [hsilent, List.nil_append] at hnotes
    exact .inr ⟨c, _, hnotes, bound, hfound⟩

theorem Registered.accesses_cases (h : Registered r start given u) (hsilent : start.around.2 = [])
    (hnoting : start.Noting) :
    u.around.2 = [] ∨ ∃ c done, u.around.2 = [.register c r done] ∧
      start.bound = some c.noted := by
  cases h with
  | idle quiet => exact .inl (by rw [quiet.around, hsilent])
  | refused bound asked _ _ | done bound asked _ _ =>
    obtain ⟨c, rfl⟩ := hnoting _ bound
    have hnotes := Container.register_noted asked
    rw [hsilent, List.nil_append] at hnotes
    exact .inr ⟨c, _, hnotes, bound⟩

end Accesses

namespace Slice

variable {s : Slice α ω} {type : TypeName} {a : α} {b : Bean α}

theorem Gives.given? (h : s.Gives type a) : given? s.reply = some a := by
  rw [h.2]
  rfl

theorem not_clears (h : s.request.type? = some type) : ¬ s.Clears := by
  intro hclears
  rw [hclears] at h
  cases h

/-- A call for a type may keep a bean for it, a clearing forgets all, and nothing else touches
the cache. -/
theorem Lawful.cache_cases (h : s.Lawful) :
    (∃ type, s.request.type? = some type ∧ Keeping type s.before (given? s.reply) s.after) ∨
    (¬ s.Clears ∧ s.request.type? = none ∧ s.after.registry.cache = s.before.registry.cache) ∨
    (s.Clears ∧ s.after.registry.cache = []) := by
  obtain ⟨request, since, before, reply, after⟩ := s
  cases h.post with
  | bound _ _ _ cache _ => exact .inr (.inl ⟨by rintro ⟨⟩, rfl, cache⟩)
  | refused _ quiet => exact .inr (.inl ⟨by rintro ⟨⟩, rfl, quiet.cache⟩)
  | wanted wants found => exact .inl ⟨_, wants.type?_eq, found.keeping⟩
  | @added b hreply keeps _ _ =>
    refine .inl ⟨b.type, rfl, ?_⟩
    rw [show given? reply = _ from hreply]
    exact .keeps keeps
  | registered registers registered => exact .inl ⟨_, registers.type?_eq, registered.keeping⟩
  | cleared _ cache _ _ => exact .inr (.inr ⟨rfl, cache⟩)

/-- Only clearing the cache makes a kept bean go. -/
theorem Lawful.kept_of_kept (h : s.Lawful) (hclears : ¬ s.Clears)
    (hkept : s.before.kept type = some b) : s.after.kept type = some b := by
  rcases h.cache_cases with ⟨_, -, keeping⟩ | ⟨-, -, cache⟩ | ⟨hclears', -⟩
  · exact keeping.kept_of_kept hkept
  · rw [World.kept, cache]
    exact hkept
  · exact absurd hclears' hclears

/-- The instance that is given is kept. -/
theorem Lawful.kept_of_gives (h : s.Lawful) (hgives : s.Gives type a) :
    ∃ b, s.after.kept type = some b ∧ b.as type = .ok a := by
  have htype := hgives.1
  rcases h.cache_cases with ⟨_, hrequest, keeping⟩ | ⟨-, hrequest, -⟩ | ⟨hclears, -⟩
  · rw [hrequest] at htype
    cases htype
    exact keeping.kept_of_given hgives.given?
  · rw [hrequest] at htype
    cases htype
  · rw [hclears] at htype
    cases htype

/-- A bean that is newly kept for a type is given, or else it is of another type. -/
theorem Lawful.gives_or_foreign (h : s.Lawful) (hnone : s.before.kept type = none)
    (hkept : s.after.kept type = some b) : (∃ a, s.Gives type a) ∨ b.type ≠ type := by
  rcases h.cache_cases with ⟨_, hrequest, keeping⟩ | ⟨-, -, cache⟩ | ⟨-, cache⟩
  · obtain ⟨rfl, ⟨a, ha⟩ | hforeign⟩ := keeping.given_or_foreign hnone hkept
    · exact .inl ⟨a, hrequest, eq_of_given? ha⟩
    · exact .inr hforeign
  · rw [World.kept, cache, ← World.kept, hnone] at hkept
    cases hkept
  · rw [World.kept, cache] at hkept
    cases hkept

theorem Lawful.not_kept_of_clears (h : s.Lawful) (hclears : s.Clears) :
    s.after.kept type = none := by
  rcases h.cache_cases with ⟨_, hrequest, -⟩ | ⟨hclears', -, -⟩ | ⟨-, cache⟩
  · rw [hclears] at hrequest
    cases hrequest
  · exact absurd hclears hclears'
  · rw [World.kept, cache]
    rfl

/-- A slice turns to a container once at most, and then to the bound one. It looks up what
its request wants. -/
theorem Lawful.accesses_cases (h : s.Lawful) :
    s.accesses = [] ∨
    (∃ c found, ∃ type, s.request.Wants type ∧ s.accesses = [.lookup c type found] ∧
      s.before.bound = some c.noted ∧ (c.lookup type s.before.around.1).1 = found) ∨
    (∃ c r done, s.accesses = [.register c r done] ∧ s.before.bound = some c.noted) := by
  obtain ⟨request, since, before, reply, after⟩ := s
  have hsilent : before.around.2 = [] := h.silent
  cases h.post with
  | bound _ _ _ _ around | added _ _ _ around | cleared _ _ _ around =>
    exact .inl ((congrArg Prod.snd around).trans hsilent)
  | refused _ quiet => exact .inl ((congrArg Prod.snd quiet.around).trans hsilent)
  | wanted wants found =>
    rcases found.accesses_cases hsilent h.noting with hnone | ⟨c, b, hrest⟩
    · exact .inl hnone
    · exact .inr (.inl ⟨c, b, _, wants, hrest⟩)
  | registered _ registered =>
    rcases registered.accesses_cases hsilent h.noting with hnone | hrest
    · exact .inl hnone
    · obtain ⟨c, done, hrest⟩ := hrest
      exact .inr (.inr ⟨c, _, done, hrest⟩)

/-- As long as no bean of a type is kept, one that is given on a wish is what the container
holds. -/
theorem Lawful.looked (h : s.Lawful) (hgives : s.Gives type a) (hwants : s.request.Wants type)
    (hfree : ∀ b, s.before.kept type = some b → b.type ≠ type) :
    ∃ c, s.accesses = [.lookup c type (some ⟨type, a⟩)] ∧
      (c.lookup type s.before.around.1).1 = some ⟨type, a⟩ := by
  have hgiven := hgives.given?
  obtain ⟨request, since, before, reply, after⟩ := s
  have hsilent : before.around.2 = [] := h.silent
  cases h.post with
  | bound | refused | added | cleared => rcases hwants with h | h <;> cases h
  | registered registers _ =>
    rcases hwants with h | h <;> cases h <;> exact registers.elim
  | wanted wants found =>
    cases wants.type?_eq.symm.trans hwants.type?_eq
    obtain ⟨c, bound, looked⟩ := found.looked hgiven hfree
    obtain ⟨d, rfl⟩ := h.noting c bound
    obtain ⟨hfound, hnotes⟩ := Container.lookup_noted looked
    rw [hsilent, List.nil_append] at hnotes
    exact ⟨d, hnotes, hfound⟩

end Slice

/-! ## Histories -/

/-- The cache is cleared strictly between two positions. -/
def ClearedBetween (history : List (Slice α ω)) (i j : Nat) : Prop :=
  ∃ (k : Nat) (s : Slice α ω), i < k ∧ k < j ∧ history[k]? = some s ∧ s.Clears

namespace Session.Valid

variable {r : Registry α (Noted α ω)} {session : Session α ω} {s t : Slice α ω} {i j k : Nat}
  {type : TypeName} {b : Bean α} {c : Container α ω}

theorem lawful_of_getElem? (h : session.Valid r) (ht : session.history[k]? = some t) : t.Lawful :=
  h.lawful t (List.mem_of_getElem? ht)

theorem registry_zero (h : session.Valid r) (ht : session.history[0]? = some t) :
    t.before.registry = r :=
  h.linked 0 t ht

/-- A slice goes on where the one before it has left the registry. -/
theorem registry_succ (h : session.Valid r) (ht : session.history[k + 1]? = some t) :
    ∃ u, session.history[k]? = some u ∧ t.before.registry = u.after.registry := by
  have hlength : k < session.history.length :=
    Nat.lt_of_succ_lt (List.getElem?_eq_some_iff.mp ht).1
  have hu := List.getElem?_eq_getElem hlength
  have hlinked := h.linked (k + 1) t ht
  rw [left, hu] at hlinked
  exact ⟨_, hu, hlinked⟩

theorem kept_until (h : session.Valid r) (hs : session.history[i]? = some s)
    (hkept : s.after.kept type = some b) (hij : i < j) (ht : session.history[j]? = some t)
    (hcleared : ¬ ClearedBetween session.history i j) : t.before.kept type = some b := by
  induction j generalizing t with
  | zero => exact absurd hij (Nat.not_lt_zero i)
  | succ j ih =>
    obtain ⟨u, hu, hregistry⟩ := h.registry_succ ht
    rw [World.kept, hregistry]
    rcases Nat.lt_or_eq_of_le (Nat.le_of_lt_succ hij) with hlt | rfl
    · have hnot : ¬ ClearedBetween session.history i j := by
        rintro ⟨k, v, hik, hkj, hv⟩
        exact hcleared ⟨k, v, hik, Nat.lt_succ_of_lt hkj, hv⟩
      apply (h.lawful_of_getElem? hu).kept_of_kept _ (ih hlt hu hnot)
      intro hclears
      exact hcleared ⟨j, u, hlt, Nat.lt_succ_self j, hu, hclears⟩
    · rw [hs] at hu
      cases hu
      exact hkept

/-- What is kept for a type is as every slice keeps it, unless one made an exception and the
cache was not cleared since. -/
theorem kept_unless (h : session.Valid r) (such : Bean α → Prop) (excepted : Slice α ω → Prop)
    (hempty : r.cache = [])
    (hnew : ∀ u : Slice α ω, u.Lawful → ¬ excepted u → ∀ b, u.before.kept type = none →
      u.after.kept type = some b → such b)
    (ht : session.history[j]? = some t)
    (hcleared : ∀ i s, i < j → session.history[i]? = some s → excepted s →
      ClearedBetween session.history i j) :
    ∀ b, t.before.kept type = some b → such b := by
  induction j generalizing t with
  | zero =>
    intro b hb
    rw [World.kept, h.registry_zero ht, hempty] at hb
    cases hb
  | succ j ih =>
    intro b hb
    obtain ⟨u, hu, hregistry⟩ := h.registry_succ ht
    rw [World.kept, hregistry, ← World.kept] at hb
    have hlawful := h.lawful_of_getElem? hu
    by_cases hclears : u.Clears
    · rw [hlawful.not_kept_of_clears hclears] at hb
      cases hb
    · -- A bean kept here came earlier, or it is new.
      cases hbefore : u.before.kept type with
      | some k =>
        rw [hlawful.kept_of_kept hclears hbefore] at hb
        cases hb
        refine ih hu ?_ b hbefore
        intro i s hij hs hexcepted
        obtain ⟨m, v, him, hmj, hv, hv'⟩ := hcleared i s (Nat.lt_succ_of_lt hij) hs hexcepted
        rcases Nat.lt_or_eq_of_le (Nat.le_of_lt_succ hmj) with hlt | rfl
        · exact ⟨m, v, him, hlt, hv, hv'⟩
        · rw [hu] at hv
          cases hv
          exact absurd hv' hclears
      | none =>
        refine hnew u hlawful ?_ b hbefore hb
        intro hexcepted
        obtain ⟨m, -, hjm, hmj, -⟩ := hcleared j u (Nat.lt_succ_self j) hu hexcepted
        omega

/-- As long as no instance of a type is given, no bean of the type is kept. -/
theorem free_until (h : session.Valid r) (hempty : r.cache = [])
    (ht : session.history[j]? = some t)
    (hcleared : ∀ i s a, i < j → session.history[i]? = some s → s.Gives type a →
      ClearedBetween session.history i j) :
    ∀ b, t.before.kept type = some b → b.type ≠ type := by
  refine h.kept_unless (fun b => b.type ≠ type) (fun s => ∃ a, s.Gives type a) hempty ?_ ht ?_
  · intro u hlawful hnot b hnone hb
    rcases hlawful.gives_or_foreign hnone hb with hgives | hforeign
    · exact absurd hgives hnot
    · exact hforeign
  · rintro i s hij hs ⟨a, hgives⟩
    exact hcleared i s a hij hs hgives

/-- A bound container is one that a slice before has bound. -/
theorem bound_by (h : session.Valid r) (hunbound : r.handle.bound = none)
    (ht : session.history[j]? = some t) (hbound : t.before.bound = some c.noted) :
    ∃ i s, i < j ∧ session.history[i]? = some s ∧ s.Binds c := by
  induction j generalizing t with
  | zero =>
    rw [World.bound, h.registry_zero ht, hunbound] at hbound
    cases hbound
  | succ j ih =>
    obtain ⟨u, hu, hregistry⟩ := h.registry_succ ht
    rw [World.bound, hregistry, ← World.bound] at hbound
    rcases (h.lawful_of_getElem? hu).post.bound_cases with
      ⟨d, hrequest, hreply, -, hafter⟩ | ⟨-, hafter⟩
    · rw [hafter] at hbound
      cases Container.noted_injective (Option.some.inj hbound)
      exact ⟨j, u, Nat.lt_succ_self j, hu, hrequest, hreply⟩
    · rw [hafter] at hbound
      obtain ⟨i, s, hij, hs, hbinds⟩ := ih hu hbound
      exact ⟨i, s, Nat.lt_succ_of_lt hij, hs, hbinds⟩

theorem bound_of_binds (h : session.Valid r) (hs : session.history[i]? = some s)
    (hbinds : s.Binds c) : s.before.bound = none ∧ s.after.bound = some c.noted := by
  rcases (h.lawful_of_getElem? hs).post.bound_cases with
    ⟨d, hrequest, -, hbefore, hafter⟩ | ⟨hnot, -⟩
  · rw [hbinds.1] at hrequest
    cases hrequest
    exact ⟨hbefore, hafter⟩
  · exact absurd hbinds (hnot c)

theorem bound_until (h : session.Valid r) (hs : session.history[i]? = some s) (hbinds : s.Binds c)
    (hij : i < j) (ht : session.history[j]? = some t) : t.before.bound = some c.noted := by
  induction j generalizing t with
  | zero => exact absurd hij (Nat.not_lt_zero i)
  | succ j ih =>
    obtain ⟨u, hu, hregistry⟩ := h.registry_succ ht
    rw [World.bound, hregistry, ← World.bound]
    rcases Nat.lt_or_eq_of_le (Nat.le_of_lt_succ hij) with hlt | rfl
    · exact (h.lawful_of_getElem? hu).post.stays _ (ih hlt hu)
    · rw [hs] at hu
      cases hu
      exact (h.bound_of_binds hs hbinds).2

/-- Two successful bindings are one. -/
theorem binds_once {d : Container α ω} (h : session.Valid r) (hs : session.history[i]? = some s)
    (ht : session.history[j]? = some t) (hsc : s.Binds c) (htd : t.Binds d) : i = j := by
  rcases Nat.lt_trichotomy i j with hij | hij | hij
  · have hbound := h.bound_until hs hsc hij ht
    rw [(h.bound_of_binds ht htd).1] at hbound
    cases hbound
  · exact hij
  · have hbound := h.bound_until ht htd hij hs
    rw [(h.bound_of_binds hs hsc).1] at hbound
    cases hbound

theorem reaches_bound (h : session.Valid r) (hunbound : r.handle.bound = none)
    (ht : session.history[j]? = some t) {access : Access α ω} (haccess : access ∈ t.accesses) :
    ∃ i s, i < j ∧ session.history[i]? = some s ∧ s.Binds access.container := by
  rcases (h.lawful_of_getElem? ht).accesses_cases with
    hnone | ⟨c, found, type, -, hone, hbound, -⟩ | ⟨c, registration, done, hone, hbound⟩
  · rw [hnone] at haccess
    cases haccess
  · rw [hone, List.mem_singleton] at haccess
    rw [haccess]
    exact h.bound_by hunbound ht hbound
  · rw [hone, List.mem_singleton] at haccess
    rw [haccess]
    exact h.bound_by hunbound ht hbound

/-- A lookup belongs to a wish that has found nothing kept when it began. -/
theorem not_kept_of_looksUp (h : session.Valid r) (ht : session.history[k]? = some t)
    (hlooks : t.LooksUp type) :
    ∃ first, session.history[t.since]? = some first ∧ first.before.kept type = none := by
  obtain ⟨c, found, hmem⟩ := hlooks
  have hwants : t.request.Wants type := by
    rcases (h.lawful_of_getElem? ht).accesses_cases with
      hnone | ⟨_, _, wanted, hwants, hone, -⟩ | ⟨_, _, _, hone, -⟩
    · rw [hnone] at hmem
      cases hmem
    · rw [hone, List.mem_singleton] at hmem
      cases hmem
      exact hwants
    · rw [hone, List.mem_singleton] at hmem
      cases hmem
  -- Had a bean been kept when the call began, its first slice would have answered at once.
  rcases h.begun k t ht with ⟨hsince, hprompt⟩ | ⟨-, first, hfirst, hrequest, hprompt, hreply⟩
  · refine ⟨t, by rw [hsince]; exact ht, ?_⟩
    cases hkept : t.before.kept type with
    | none => rfl
    | some b =>
      rw [(hprompt type b hwants hkept).1] at hmem
      cases hmem
  · refine ⟨first, hfirst, ?_⟩
    cases hkept : first.before.kept type with
    | none => rfl
    | some b =>
      rw [← hrequest] at hwants
      obtain ⟨-, reply, hfound, -⟩ := hprompt type b hwants hkept
      rw [hreply] at hfound
      cases hfound

theorem gives_same (h : session.Valid r) {a a' : α} (hij : i < j)
    (hs : session.history[i]? = some s) (ht : session.history[j]? = some t)
    (hgives : s.Gives type a) (hgives' : t.Gives type a')
    (hcleared : ¬ ClearedBetween session.history i j) : a = a' := by
  obtain ⟨b, hkept, has⟩ := (h.lawful_of_getElem? hs).kept_of_gives hgives
  obtain ⟨b', hkept', has'⟩ := (h.lawful_of_getElem? ht).kept_of_gives hgives'
  have hbefore := h.kept_until hs hkept hij ht hcleared
  have hclears : ¬ t.Clears := Slice.not_clears hgives'.1
  rw [(h.lawful_of_getElem? ht).kept_of_kept hclears hbefore] at hkept'
  cases hkept'
  rw [has] at has'
  exact Except.ok.inj has'

/-- A wish that is made after an instance was given gets it at once. -/
theorem granted (h : session.Valid r) {a : α} (hij : i < j) (hs : session.history[i]? = some s)
    (ht : session.history[j]? = some t) (hgives : s.Gives type a)
    (hcleared : ¬ ClearedBetween session.history i j) (hwants : t.request.Wants type)
    (hsince : t.since = j) : t.Gives type a ∧ t.accesses = [] := by
  obtain ⟨b, hkept, has⟩ := (h.lawful_of_getElem? hs).kept_of_gives hgives
  have hbefore := h.kept_until hs hkept hij ht hcleared
  rcases h.begun j t ht with ⟨-, hprompt⟩ | ⟨hlt, -⟩
  · obtain ⟨hnone, reply, hreply, hgiven⟩ := hprompt type b hwants hbefore
    rw [hgiven a has] at hreply
    exact ⟨⟨hwants.type?_eq, hreply⟩, hnone⟩
  · rw [hsince] at hlt
    exact absurd hlt (Nat.lt_irrefl j)

end Session.Valid

/-- **One instance per type.** In every session with a new registry, whatever containers
are offered to it, whatever its surroundings do, and in whatever order calls begin, sleep
and go on:

* two calls that give an instance of a type give the same one unless the cache is cleared
  between;
* a wish that is made after an instance was given gets it at once, and no call that begins
  then looks the type up, unless the cache is cleared between;
* a wish that is the first to be granted, or the first since the cache was cleared, gives
  what the container holds at that moment;
* no more than one container is bound, and no other one is turned to. -/
theorem one_instance_per_type (settings : Settings) (introspector : Introspector) (o : ω)
    (events : List (Event α ω)) :
    let history := ((Session.start settings introspector o).run events).history
    (∀ (i j : Nat) (s t : Slice α ω) (type : TypeName) (a b : α), i < j →
      history[i]? = some s → history[j]? = some t → s.Gives type a → t.Gives type b →
      ¬ ClearedBetween history i j → a = b) ∧
    (∀ (i j : Nat) (s t : Slice α ω) (type : TypeName) (a : α), i < j →
      history[i]? = some s → history[j]? = some t → s.Gives type a →
      ¬ ClearedBetween history i j → t.request.Wants type → t.since = j →
      t.Gives type a ∧ t.accesses = []) ∧
    (∀ (i j : Nat) (s t : Slice α ω) (type : TypeName) (a : α),
      history[i]? = some s → history[j]? = some t → s.Gives type a → i < t.since →
      t.LooksUp type → ClearedBetween history i t.since) ∧
    (∀ (j : Nat) (t : Slice α ω) (type : TypeName) (a : α),
      history[j]? = some t → t.Gives type a → t.request.Wants type →
      (∀ (i : Nat) (s : Slice α ω) (b : α), i < j → history[i]? = some s → s.Gives type b →
        ClearedBetween history i j) →
      ∃ c, t.accesses = [.lookup c type (some ⟨type, a⟩)] ∧
        (c.lookup type t.before.around.1).1 = some ⟨type, a⟩) ∧
    (∀ (i j : Nat) (s t : Slice α ω) (c d : Container α ω),
      history[i]? = some s → history[j]? = some t → s.Binds c → t.Binds d → i = j) ∧
    (∀ (j : Nat) (t : Slice α ω) (access : Access α ω),
      history[j]? = some t → access ∈ t.accesses →
      ∃ (i : Nat) (s : Slice α ω), i < j ∧ history[i]? = some s ∧ s.Binds access.container) := by
  intro history
  have h := (Session.valid_start (α := α) settings introspector o).run events
  refine ⟨?_, ?_, ?_, ?_, ?_, ?_⟩
  · intro i j s t type a b hij hs ht hgives hgives' hcleared
    exact h.gives_same hij hs ht hgives hgives' hcleared
  · intro i j s t type a hij hs ht hgives hcleared hwants hsince
    exact h.granted hij hs ht hgives hcleared hwants hsince
  · intro i j s t type a hs ht hgives hsince hlooks
    obtain ⟨first, hfirst, hnone⟩ := h.not_kept_of_looksUp ht hlooks
    obtain ⟨b, hkept, -⟩ := (h.lawful_of_getElem? hs).kept_of_gives hgives
    apply Classical.byContradiction
    intro hcleared
    rw [h.kept_until hs hkept hsince hfirst hcleared] at hnone
    cases hnone
  · intro j t type a ht hgives hwants hcleared
    exact (h.lawful_of_getElem? ht).looked hgives hwants (h.free_until rfl ht hcleared)
  · intro i j s t c d hs ht hsc htd
    exact h.binds_once hs ht hsc htd
  · intro j t access ht haccess
    exact h.reaches_bound rfl ht haccess

/-- A container that has the beans of a list. -/
def shelf : Container Nat (List (Bean Nat)) where
  lookup type s := (s.find? (·.type = type), s)
  register r s := (.ok (), s ++ [r.bean])
  property _ s := (none, s)

/-- The first call sleeps until the shelf is bound, and then until it has a lamp. What is put
there later is seen only when the cache has been cleared. -/
example :
    let lamp : TypeName := ⟨"home::Lamp"⟩
    let events : List (Event Nat (List (Bean Nat))) :=
      [.ask (.of lamp) 0, .ask (.bind shelf) 5, .wake 0 6, .outside fun _ => [⟨lamp, 7⟩],
        .wake 0 9, .outside fun _ => [⟨lamp, 8⟩], .ask (.get lamp) 10, .ask .clearCache 11,
        .ask (.get lamp) 12]
    ((Session.start .standard {} []).run events).history.map (·.reply) =
      [none, some (.ok none), none, some (.ok (some 7)), some (.ok (some 7)),
        some (.ok none), some (.ok (some 8))] := by
  rfl

end Wiring
