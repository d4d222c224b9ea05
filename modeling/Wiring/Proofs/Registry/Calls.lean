import Wiring.Proofs.Registry.Slices
import Wiring.Registry.Operations

/-!
# What calls do to the world

A slice of a call touches a container at most once. It looks the wanted type up
and keeps what it finds, or it registers a bean and keeps it, or it leaves the
world alone but for what nobody sees. What is kept already stays.
-/

namespace Wiring

variable {α ω : Type}

namespace World

/-- The bound container. -/
def bound (w : World α ω) : Option (Container α ω) :=
  w.registry.handle.bound

/-- The bean kept for a type. -/
def kept (w : World α ω) (type : TypeName) : Option (Bean α) :=
  w.registry.cache.lookup type

/-- What others keep: a container that is bound stays bound. -/
def Stays (w u : World α ω) : Prop :=
  ∀ c, w.bound = some c → u.bound = some c

/-- The container, the kept beans and the surroundings are the same. -/
structure Quiet (w u : World α ω) : Prop where
  bound : u.bound = w.bound
  cache : u.registry.cache = w.registry.cache
  around : u.around = w.around

/-- A bean was kept for a type unless there was one, and none for other types. -/
def Keeps (type : TypeName) (b : Bean α) (w u : World α ω) : Prop :=
  ∀ other, u.kept other = if other = type then some ((w.kept type).getD b) else w.kept other

variable {w u v : World α ω} {type : TypeName} {b : Bean α}

theorem Stays.refl (w : World α ω) : Stays w w :=
  fun _ h => h

theorem Stays.trans (h : Stays w u) (h' : Stays u v) : Stays w v :=
  fun c hc => h' c (h c hc)

theorem Stays.of_eq (h : u.bound = w.bound) : Stays w u := by
  intro c hc
  rw [h, hc]

theorem Quiet.refl (w : World α ω) : Quiet w w :=
  ⟨rfl, rfl, rfl⟩

theorem Quiet.trans (h : Quiet w u) (h' : Quiet u v) : Quiet w v :=
  ⟨h'.bound.trans h.bound, h'.cache.trans h.cache, h'.around.trans h.around⟩

theorem Quiet.kept (h : Quiet w u) (type : TypeName) : u.kept type = w.kept type := by
  rw [World.kept, World.kept, h.cache]

theorem bind_of_unbound (h : w.bound = none) (c : Container α ω) :
    w.bind c = (.ok (), { w with registry :=
      { w.registry with handle := ⟨some c, w.registry.handle.signals + 1⟩ } }) := by
  rw [World.bind, Handle.bind, show w.registry.handle.bound = none from h]

theorem bind_of_bound {d : Container α ω} (h : w.bound = some d) (c : Container α ω) :
    w.bind c = (.error .alreadyBound, w) := by
  rw [World.bind, Handle.bind, show w.registry.handle.bound = some d from h]

/-- Keeping a bean gives the one that is kept then. -/
theorem fst_remember (type : TypeName) (b : Bean α) (w : World α ω) :
    (w.remember type b).1 = ((w.kept type).getD b).as type := by
  rw [World.remember, Registry.remember, kept]
  cases w.registry.cache.lookup type <;> rfl

theorem bound_remember (type : TypeName) (b : Bean α) (w : World α ω) :
    (w.remember type b).2.bound = w.bound := by
  rw [World.remember, Registry.remember]
  cases w.registry.cache.lookup type <;> rfl

theorem Keeps.of_cache (h : Keeps type b v u) (hcache : v.registry.cache = w.registry.cache) :
    Keeps type b w u := by
  intro other
  rw [h other, World.kept, World.kept, World.kept, World.kept, hcache]

theorem keeps_remember (type : TypeName) (b : Bean α) (w : World α ω) :
    Keeps type b w (w.remember type b).2 := by
  intro other
  rw [World.remember, Registry.remember, kept, kept, kept]
  by_cases hother : other = type
  · subst hother
    cases h : w.registry.cache.lookup other <;> simp [h, List.lookup_append]
  · have hne : (other == type) = false := by simpa using hother
    cases w.registry.cache.lookup type <;>
      simp [List.lookup_append, List.lookup_cons, hne, hother]

end World

open World

/-! ## Calls in slices -/

namespace Call

variable {β γ : Type} {post : World α ω → Option (Except RegistryError β) → World α ω → Prop}
  {start s : World α ω}

/-- Every slice of the call ends as told; others keep what is bound. -/
def Works (post : World α ω → Option (Except RegistryError β) → World α ω → Prop)
    (call : Call α ω β) (start s : World α ω) : Prop :=
  Action.Works Stays post (ExceptT.run call) start s

theorem Works.imp {call : Call α ω β}
    {post' : World α ω → Option (Except RegistryError β) → World α ω → Prop}
    (h : Works post call start s) (hpost : ∀ start o t, post start o t → post' start o t) :
    Works post' call start s :=
  Action.Works.imp h hpost

/-- What follows a call starts where a slice has succeeded. -/
theorem Works.bind {call : Call α ω γ} {k : γ → Call α ω β}
    (h : Works (fun start o t =>
      match o with
      | some (.ok c) => Works post (k c) start t
      | some (.error e) => post start (some (.error e)) t
      | none => post start none t) call start s) :
    Works post (call >>= k) start s := by
  refine Action.Works.bind (Action.Works.imp h ?_)
  intro start o t ho
  cases o with
  | none => exact ho
  | some r => cases r <;> exact ho

theorem works_immediately {act : World α ω → Except RegistryError β × World α ω}
    (h : post start (some (act s).1) (act s).2) : Works post (immediately act) start s :=
  h

theorem works_get {k : World α ω → Call α ω β} (h : Works post (k s) start s) :
    Works post (get >>= k) start s :=
  h

/-- What a call makes of the end of a wait. -/
def outcome (late : RegistryError) : WaitOutcome β → Except RegistryError β
  | .found b => .ok b
  | .timedOut => .error late
  | .overflow => .error .clockOverflow

/-- A wait that starts in a quiet world. Each of its checks is made in a world in which
what was bound is bound still, and it finds something or the slice ends without. -/
theorem works_await {p : WaitPolicy} {late : RegistryError}
    {check : World α ω → Option β × World α ω} (hquiet : Quiet start s)
    (hfail : ∀ o, (∀ b, o ≠ some (.ok b)) → post start o s)
    (hcheck : ∀ start u, Quiet start u → Stays s u →
      match check u with
      | (some b, v) => post start (some (.ok b)) v
      | (none, v) => Stays u v ∧ ∀ o, (∀ b, o ≠ some (.ok b)) → post start o v) :
    Works post (await p late check) start s := by
  intro now
  dsimp only
  cases p.deadline? now with
  | none => exact hfail (some (.error .clockOverflow)) (by rintro b ⟨⟩)
  | some deadline =>
    have htries : ∀ start u, Quiet start u → Stays s u →
        Action.Tries Stays (fun o start t => post start (some (outcome late o)) t)
          (fun start t => post start none t) check start u := by
      intro start u hu hs
      have h := hcheck start u hu hs
      rw [Action.Tries]
      cases hv : check u with
      | mk found v =>
        rw [hv] at h
        cases found with
        | some b => exact h
        | none =>
          obtain ⟨hstays, hfail⟩ := h
          exact ⟨hstays, hfail _ (by rintro b ⟨⟩), hfail _ (by rintro b ⟨⟩),
            hfail none (by rintro b ⟨⟩)⟩
    constructor
    · exact (htries start s hquiet (Stays.refl s)).imp
        (fun o _ _ h => by cases o <;> exact h) fun _ _ h => h
    · intro t ht
      exact (htries t t (Quiet.refl t) ht).imp
        (fun o _ _ h => by cases o <;> exact h) fun _ _ h => h

end Call

/-! ## Asking for a bean -/

/-- What a slice of a call for the bean of a type comes to: the bean that it gives, if any,
and the world. -/
inductive Found (type : TypeName) (start : World α ω) : Option α → World α ω → Prop
  | idle {given : Option α} {u : World α ω} (quiet : Quiet start u)
    (known : ∀ a, given = some a → ∃ b, start.kept type = some b ∧ b.as type = .ok a) :
    Found type start given u
  | absent {c : Container α ω} {u : World α ω} (bound : start.bound = some c)
    (looked : c.lookup type start.around = (none, u.around)) (stays : u.bound = start.bound)
    (cache : u.registry.cache = start.registry.cache) : Found type start none u
  | found {c : Container α ω} {b : Bean α} {u : World α ω} (bound : start.bound = some c)
    (looked : c.lookup type start.around = (some b, u.around)) (stays : u.bound = start.bound)
    (keeps : Keeps type b start u) :
    Found type start (((start.kept type).getD b).as type).toOption u

/-- What a slice of a call that registers a bean comes to. -/
inductive Registered (r : Registration α) (start : World α ω) : Option α → World α ω → Prop
  | idle {u : World α ω} (quiet : Quiet start u) : Registered r start none u
  | refused {c : Container α ω} {e : ContextError} {u : World α ω} (bound : start.bound = some c)
    (asked : c.register r start.around = (.error e, u.around)) (stays : u.bound = start.bound)
    (cache : u.registry.cache = start.registry.cache) : Registered r start none u
  | done {c : Container α ω} {u : World α ω} (bound : start.bound = some c)
    (asked : c.register r start.around = (.ok (), u.around)) (stays : u.bound = start.bound)
    (keeps : Keeps r.bean.type r.bean start u) :
    Registered r start (((start.kept r.bean.type).getD r.bean).as r.bean.type).toOption u

theorem Found.stays {type : TypeName} {start u : World α ω} {given : Option α}
    (h : Found type start given u) : u.bound = start.bound := by
  cases h with
  | idle quiet _ => exact quiet.bound
  | absent _ _ stays _ => exact stays
  | found _ _ stays _ => exact stays

theorem Registered.stays {r : Registration α} {start u : World α ω} {given : Option α}
    (h : Registered r start given u) : u.bound = start.bound := by
  cases h with
  | idle quiet => exact quiet.bound
  | refused _ _ stays _ => exact stays
  | done _ _ stays _ => exact stays

section Kept

variable {type other : TypeName} {b kept : Bean α} {a : α} {start u : World α ω}
  {given : Option α} {r : Registration α}

theorem as_of_toOption (h : (b.as type).toOption = some a) : b.as type = .ok a := by
  cases hb : b.as type with
  | error e => rw [hb] at h; cases h
  | ok c => rw [hb] at h; cases h; rfl

theorem as_of_type (h : b.type = type) : b.as type = .ok b.content :=
  if_pos h

theorem eq_of_as (h : b.as type = .ok a) : b = ⟨type, a⟩ := by
  rw [Bean.as] at h
  split at h
  · rename_i htype
    cases h
    rw [← htype]
  · cases h

/-- What a slice does to the kept beans: it leaves them alone, or it keeps one for a type. A
bean that it gives is one that is kept then. -/
inductive Keeping (type : TypeName) (start : World α ω) : Option α → World α ω → Prop
  | alone {given : Option α} {u : World α ω} (cache : u.registry.cache = start.registry.cache)
    (known : ∀ a, given = some a → ∃ b, start.kept type = some b ∧ b.as type = .ok a) :
    Keeping type start given u
  | keeps {b : Bean α} {u : World α ω} (keeps : Keeps type b start u) :
    Keeping type start (((start.kept type).getD b).as type).toOption u

theorem Found.keeping (h : Found type start given u) : Keeping type start given u := by
  cases h with
  | idle quiet known => exact .alone quiet.cache known
  | absent _ _ _ cache => exact .alone cache (by rintro a ⟨⟩)
  | found _ _ _ keeps => exact .keeps keeps

theorem Registered.keeping (h : Registered r start given u) :
    Keeping r.bean.type start given u := by
  cases h with
  | idle quiet => exact .alone quiet.cache (by rintro a ⟨⟩)
  | refused _ _ _ cache => exact .alone cache (by rintro a ⟨⟩)
  | done _ _ _ keeps => exact .keeps keeps

namespace Keeping

theorem kept_of_kept (h : Keeping type start given u) (hkept : start.kept other = some kept) :
    u.kept other = some kept := by
  cases h with
  | alone cache _ =>
    rw [World.kept, cache]
    exact hkept
  | keeps keeps =>
    rw [keeps other]
    split
    · rename_i hother
      subst hother
      rw [hkept]
      rfl
    · exact hkept

theorem kept_of_given (h : Keeping type start given u) (hgiven : given = some a) :
    ∃ kept, u.kept type = some kept ∧ kept.as type = .ok a := by
  cases h with
  | alone cache known =>
    rw [World.kept, cache]
    exact known a hgiven
  | @keeps b u keeps =>
    refine ⟨(start.kept type).getD b, ?_, as_of_toOption hgiven⟩
    rw [keeps type, if_pos rfl]

/-- What is newly kept is kept for the type, and it is given or else of another type. -/
theorem given_or_foreign (h : Keeping type start given u) (hnone : start.kept other = none)
    (hkept : u.kept other = some kept) :
    other = type ∧ ((∃ a, given = some a) ∨ kept.type ≠ type) := by
  cases h with
  | alone cache _ =>
    rw [World.kept, cache, ← World.kept, hnone] at hkept
    cases hkept
  | @keeps b u keeps =>
    rw [keeps other] at hkept
    split at hkept
    · rename_i hother
      subst hother
      rw [hnone, Option.getD_none] at hkept ⊢
      cases hkept
      refine ⟨rfl, ?_⟩
      by_cases htype : kept.type = other
      · exact .inl ⟨kept.content, by rw [as_of_type htype]; rfl⟩
      · exact .inr htype
    · rw [hnone] at hkept
      cases hkept

end Keeping

/-- As long as no bean of the type is kept, the one that is given was looked up. -/
theorem Found.looked (h : Found type start given u) (hgiven : given = some a)
    (hfree : ∀ b, start.kept type = some b → b.type ≠ type) :
    ∃ c, start.bound = some c ∧ c.lookup type start.around = (some ⟨type, a⟩, u.around) := by
  cases h with
  | idle quiet known =>
    obtain ⟨b, hb, has⟩ := known a hgiven
    rw [eq_of_as has] at hb
    exact absurd rfl (hfree _ hb)
  | absent _ _ _ _ => cases hgiven
  | @found c b u bound looked _ _ =>
    have has := as_of_toOption hgiven
    cases hkept : start.kept type with
    | some k =>
      rw [hkept, Option.getD_some] at has
      rw [eq_of_as has] at hkept
      exact absurd rfl (hfree _ hkept)
    | none =>
      rw [hkept, Option.getD_none] at has
      rw [eq_of_as has] at looked
      exact ⟨c, bound, looked⟩

end Kept

/-- The instance that a call gives. -/
def instance? (o : Option (Except RegistryError α)) : Option α :=
  o.bind (·.toOption)

/-- A bean that is kept is given at once, and the world is left alone. -/
theorem get_of_kept {type : TypeName} {b : Bean α} {w : World α ω} (h : w.kept type = some b) :
    w.get type = ((b.as type).toOption, w) := by
  rw [World.get, show w.registry.cache.lookup type = some b from h]

/-- A bean that was looked up is kept, and what is kept then is given. -/
theorem found_remember {type : TypeName} {c : Container α ω} {b : Bean α} {start v : World α ω}
    (hbound : start.bound = some c) (hlook : c.lookup type start.around = (some b, v.around))
    (hstays : v.bound = start.bound) (hcache : v.registry.cache = start.registry.cache) :
    Found type start (v.remember type b).1.toOption (v.remember type b).2 := by
  have hkept : v.kept type = start.kept type := by rw [World.kept, World.kept, hcache]
  rw [fst_remember, hkept]
  exact .found hbound hlook ((bound_remember type b v).trans hstays)
    ((keeps_remember type b v).of_cache hcache)

theorem found_get (type : TypeName) (w : World α ω) :
    Found type w (w.get type).1 (w.get type).2 := by
  cases hkept : w.kept type with
  | some b =>
    rw [get_of_kept hkept]
    exact .idle (Quiet.refl w) fun a ha => ⟨b, hkept, as_of_toOption ha⟩
  | none =>
    rw [World.get, show w.registry.cache.lookup type = none from hkept]
    cases hbound : w.bound with
    | none =>
      rw [show w.registry.handle.bound = none from hbound]
      exact .idle (Quiet.refl w) (by rintro a ⟨⟩)
    | some c =>
      rw [show w.registry.handle.bound = some c from hbound]
      dsimp only
      rw [lookupIn]
      cases hlook : c.lookup type w.around with
      | mk found around =>
        cases found with
        | none => exact .absent hbound hlook rfl rfl
        | some b => exact found_remember (v := { w with around }) hbound hlook rfl rfl

namespace Call

variable {start s : World α ω}

theorem advance_get {β : Type} (k : World α ω → Call α ω β) (w : World α ω) (now : Nat) :
    Action.advance now (ExceptT.run (get >>= k)) w = Action.advance now (ExceptT.run (k w)) w :=
  rfl

theorem advance_of_kept {type : TypeName} {b : Bean α} {w : World α ω}
    (h : w.kept type = some b) (now : Nat) :
    Action.advance now (ExceptT.run (of type)) w = (.done (b.as type), w) := by
  rw [of, advance_get, show w.registry.cache.lookup type = some b from h]
  rfl

theorem works_container (h : Quiet start s) :
    Works (fun start o t => Quiet start t ∧ ∀ c, o = some (.ok c) → start.bound = some c)
      container start s := by
  apply works_get
  dsimp only
  cases hbound : s.registry.handle.bound with
  | some c =>
    refine ⟨h, ?_⟩
    rintro d ⟨⟩
    exact h.bound ▸ hbound
  | none =>
    apply works_await h
    · intro o ho
      exact ⟨h, fun c hc => absurd hc (ho c)⟩
    · intro start u hu _
      split
      · rename_i c v hcheck
        obtain ⟨hc, rfl⟩ := Prod.mk.inj hcheck
        refine ⟨hu, ?_⟩
        rintro d ⟨⟩
        rw [← hu.bound]
        exact hc
      · rename_i v hcheck
        obtain ⟨-, rfl⟩ := Prod.mk.inj hcheck
        exact ⟨Stays.refl u, fun o ho => ⟨hu, fun c hc => absurd hc (ho c)⟩⟩

/-- **Asking for a bean.** -/
theorem works_of (type : TypeName) (start : World α ω) :
    Works (fun start o t => Found type start (instance? o) t) (of type) start start := by
  apply works_get
  dsimp only
  cases hkept : start.kept type with
  | some b =>
    rw [show start.registry.cache.lookup type = some b from hkept]
    apply works_immediately
    exact .idle (Quiet.refl start) fun a ha => ⟨b, hkept, as_of_toOption ha⟩
  | none =>
    rw [show start.registry.cache.lookup type = none from hkept]
    apply Works.bind
    refine (works_container (Quiet.refl start)).imp ?_
    rintro start o t ⟨hquiet, hcontainer⟩
    rcases o with _ | e | c
    · exact .idle hquiet (by rintro a ⟨⟩)
    · exact .idle hquiet (by rintro a ⟨⟩)
    · have hbound := hcontainer c rfl
      apply works_get
      apply Works.bind
      apply works_await hquiet
      · intro o ho
        rcases o with _ | e | b
        · exact .idle hquiet (by rintro a ⟨⟩)
        · exact .idle hquiet (by rintro a ⟨⟩)
        · exact absurd rfl (ho b)
      · intro start u hu hstays
        have hbound : start.bound = some c := by
          rw [← hu.bound]
          exact hstays c (by rw [hquiet.bound, hbound])
        rw [lookupIn, hu.around]
        cases hlook : c.lookup type start.around with
        | mk found around =>
          cases found with
          | none =>
            refine ⟨Stays.of_eq rfl, ?_⟩
            intro o ho
            rcases o with _ | e | b
            · exact .absent hbound hlook hu.bound hu.cache
            · exact .absent hbound hlook hu.bound hu.cache
            · exact absurd rfl (ho b)
          | some b =>
            exact found_remember (v := { u with around }) hbound hlook hu.bound hu.cache

/-- Registering a bean in the bound container. -/
theorem registered_registerIn {c : Container α ω} (r : Registration α) {u : World α ω}
    (hquiet : Quiet start u) (hbound : start.bound = some c) :
    Registered r start (instance? (some (World.registerIn c r u).1))
      (World.registerIn c r u).2 := by
  rw [World.registerIn, hquiet.around]
  cases hasked : c.register r start.around with
  | mk done around =>
    cases done with
    | error e => exact .refused hbound hasked hquiet.bound hquiet.cache
    | ok _ =>
      let v : World α ω := { u with around }
      have hkept : v.kept r.bean.type = start.kept r.bean.type := hquiet.kept r.bean.type
      have hgiven := fst_remember r.bean.type r.bean v
      rw [hkept] at hgiven
      have hkeeps : Keeps r.bean.type r.bean start (v.remember r.bean.type r.bean).2.notify :=
        (keeps_remember r.bean.type r.bean v).of_cache hquiet.cache
      have hstays : (v.remember r.bean.type r.bean).2.notify.bound = start.bound :=
        (bound_remember r.bean.type r.bean v).trans hquiet.bound
      have h := Registered.done hbound hasked hstays hkeeps
      rw [← hgiven] at h
      exact h

/-- **Registering a bean.** The call may start where others have left the world quiet. -/
theorem works_registerNamed (name : String) (b : Bean α) (h : Quiet start s) :
    Works (fun start o t => Registered ⟨name, b⟩ start (instance? o) t)
      (registerNamed name b) start s := by
  apply Works.bind
  -- The slice that finds the container also registers, so `start` is where that slice began.
  refine (works_container h).imp ?_
  rintro start o t ⟨hquiet, hcontainer⟩
  rcases o with _ | e | c
  · exact .idle hquiet
  · exact .idle hquiet
  · exact registered_registerIn ⟨name, b⟩ hquiet (hcontainer c rfl)

/-- Writing the fields of a record touches nothing but the introspector. -/
theorem exists_snd_fill {σ : Type} (r : Record σ) (x : σ) (fields : List (String × Value))
    (w : World α ω) :
    ∃ i, (World.fill r x fields w).2 =
      { w with registry := { w.registry with introspector := i } } := by
  induction fields generalizing x w with
  | nil => exact ⟨w.registry.introspector, rfl⟩
  | cons field rest ih =>
    obtain ⟨name, v⟩ := field
    rw [World.fill]
    rcases Introspector.setValue r x name v w.registry.introspector with ⟨e | y, i⟩
    · exact ⟨i, rfl⟩
    · exact ih y _

/-- Writing the fields of a record is not seen by others. -/
theorem quiet_fill {σ : Type} (r : Record σ) (x : σ) (fields : List (String × Value))
    (w : World α ω) : Quiet w (World.fill r x fields w).2 := by
  obtain ⟨i, hi⟩ := exists_snd_fill r x fields w
  rw [hi]
  exact ⟨rfl, rfl, rfl⟩

theorem works_registerWith {σ : Type} (r : Record σ) (blank : σ) (content : σ → α)
    (fields : List (String × Value)) (start : World α ω) :
    Works (fun start o t => ∃ x, Registered (.of ⟨r.type, content x⟩) start (instance? o) t)
      (registerWith r blank content fields) start start := by
  apply Works.bind
  apply works_immediately
  have hquiet := quiet_fill r blank fields start
  cases hfill : World.fill r blank fields start with
  | mk filled w =>
    rw [hfill] at hquiet
    cases filled with
    | error e => exact ⟨blank, .idle hquiet⟩
    | ok x =>
      exact (works_registerNamed _ _ hquiet).imp fun start o t h => ⟨x, h⟩

end Call

end Wiring
