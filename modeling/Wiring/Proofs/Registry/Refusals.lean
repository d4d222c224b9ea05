import Wiring.Proofs.Container.Naming
import Wiring.Proofs.Registry.Courses

/-!
# Refused registrations

A context holds a bean for its own type, so every bean that is kept is of the type that it is
kept for, and no call meets a bean of another type. Hence a registration fails only before it
has been carried out, and then it has changed nothing. If it succeeds the context has taken
the bean.
-/

namespace Wiring

open World

variable {ι α : Type} [DecidableEq ι]

/-- The kept beans are of their types, the bound container is a context of the program, and
the contexts are coherent. -/
structure World.Sound (w : World α (Contexts ι α)) : Prop where
  proper : ∀ type b, w.kept type = some b → b.type = type
  placed : ∀ c, w.bound = some c → ∃ place, c = Context.at place
  coherent : ∀ place, (w.around place).Coherent

/-- The bound context takes the bean of the registration, and the instance is kept. -/
def World.TakesIn (start u : World α (Contexts ι α)) (r : Registration α) (a : α) : Prop :=
  ∃ place, start.bound = some (Context.at place) ∧
    (Context.at place).register r start.around = (.ok (), u.around) ∧
    u.kept r.bean.type = some ⟨r.bean.type, a⟩

section Contexts

variable {place : ι} {contexts : Contexts ι α}

/-- Looking up and reading properties leaves the contexts alone. -/
theorem Context.lookup_at (type : TypeName) :
    (Context.at place).lookup type contexts = ((contexts place).lookup type, contexts) :=
  congrArg (Prod.mk _) (Function.update_eq_self place contexts)

theorem Context.property_at (name : String) :
    ((Context.at place).property name contexts).2 = contexts :=
  Function.update_eq_self place contexts

theorem Context.register_at (r : Registration α) :
    (Context.at place).register r contexts =
      ((container.register r (contexts place)).1,
        Function.update contexts place (container.register r (contexts place)).2) :=
  rfl

/-- A registration that a context refuses leaves the contexts alone. -/
theorem Context.eq_of_register_at {r : Registration α} {e : ContextError} {u : Contexts ι α}
    (h : (Context.at place).register r contexts = (.error e, u)) : u = contexts := by
  rw [register_at] at h
  obtain ⟨herror, rfl⟩ := Prod.mk.inj h
  rcases register_cases r (contexts place) with ⟨hdone, -⟩ | ⟨hrefused, -⟩
  · rw [hdone] at herror
    cases herror
  · rw [hrefused]
    exact Function.update_eq_self place contexts

theorem Context.coherent_register_at (h : ∀ place, (contexts place).Coherent)
    (r : Registration α) (other : ι) :
    (((Context.at place).register r contexts).2 other).Coherent := by
  rw [register_at]
  dsimp only
  by_cases hother : other = place
  · subst hother
    rw [Function.update_self]
    exact (h other).register r
  · rw [Function.update_of_ne hother]
    exact h other

end Contexts

/-! ## Slices of calls -/

namespace World.Sound

variable {start u : World α (Contexts ι α)} {type : TypeName} {b : Bean α}

theorem quiet (h : start.Sound) (hquiet : Quiet start u) : u.Sound where
  proper type b hb := h.proper type b (hquiet.kept type ▸ hb)
  placed c hc := h.placed c (hquiet.bound ▸ hc)
  coherent := by
    rw [hquiet.around]
    exact h.coherent

/-- Keeping a bean for its own type. -/
theorem keeps (h : start.Sound) (hkeeps : Keeps type b start u) (htype : b.type = type)
    (hbound : u.bound = start.bound) (hcoherent : ∀ place, (u.around place).Coherent) :
    u.Sound where
  proper other kept hkept := by
    rw [hkeeps other] at hkept
    split at hkept
    · rename_i hother
      subst hother
      cases hstart : start.kept other with
      | some old =>
        rw [hstart] at hkept
        cases hkept
        exact h.proper other _ hstart
      | none =>
        rw [hstart] at hkept
        cases hkept
        exact htype
    · exact h.proper other kept hkept
  placed c hc := h.placed c (hbound ▸ hc)
  coherent := hcoherent

theorem found {given : Option α} (h : start.Sound) (hfound : Found type start given u) :
    u.Sound := by
  cases hfound with
  | idle quiet _ => exact h.quiet quiet
  | absent bound looked stays cache =>
    obtain ⟨place, rfl⟩ := h.placed _ bound
    rw [Context.lookup_at] at looked
    exact h.quiet ⟨stays, cache, (Prod.mk.inj looked).2.symm⟩
  | @found c b u bound looked stays keeps =>
    obtain ⟨place, rfl⟩ := h.placed _ bound
    rw [Context.lookup_at] at looked
    obtain ⟨hlookup, haround⟩ := Prod.mk.inj looked
    obtain ⟨r, hr, rfl⟩ := Option.map_eq_some_iff.mp hlookup
    refine h.keeps keeps ((h.coherent place).typed type r hr) stays ?_
    rw [← haround]
    exact h.coherent

theorem registered {r : Registration α} {given : Option α} (h : start.Sound)
    (hregistered : Registered r start given u) : u.Sound := by
  cases hregistered with
  | idle quiet => exact h.quiet quiet
  | refused bound asked stays cache =>
    obtain ⟨place, rfl⟩ := h.placed _ bound
    exact h.quiet ⟨stays, cache, Context.eq_of_register_at asked⟩
  | done bound asked stays keeps =>
    obtain ⟨place, rfl⟩ := h.placed _ bound
    refine h.keeps keeps rfl stays ?_
    have hcoherent : ∀ other, (((Context.at place).register r start.around).2 other).Coherent :=
      Context.coherent_register_at h.coherent r
    rw [asked] at hcoherent
    exact hcoherent

/-- **A registration that gives no instance has changed nothing.** -/
theorem quiet_of_registered {r : Registration α} (h : start.Sound)
    (hregistered : Registered r start none u) : Quiet start u := by
  generalize hgiven : (none : Option α) = given at hregistered
  cases hregistered with
  | idle quiet => exact quiet
  | refused bound asked stays cache =>
    obtain ⟨place, rfl⟩ := h.placed _ bound
    exact ⟨stays, cache, Context.eq_of_register_at asked⟩
  | done bound asked stays keeps =>
    -- What is kept then is of the type, so there would be an instance.
    have htype : ((start.kept r.bean.type).getD r.bean).type = r.bean.type := by
      cases hkept : start.kept r.bean.type with
      | some kept => exact h.proper _ kept hkept
      | none => rfl
    rw [as_of_type htype] at hgiven
    cases hgiven

/-- A registration that gives an instance has been carried out, and the instance is kept. -/
theorem carried_out_of_registered {r : Registration α} {a : α} (h : start.Sound)
    (hregistered : Registered r start (some a) u) :
    start.TakesIn u r a := by
  obtain ⟨kept, hkept, has⟩ := hregistered.keeping.kept_of_given rfl
  rw [eq_of_as has] at hkept
  generalize hgiven : some a = given at hregistered
  cases hregistered with
  | idle quiet => cases hgiven
  | refused bound asked stays cache => cases hgiven
  | done bound asked stays keeps =>
    obtain ⟨place, rfl⟩ := h.placed _ bound
    exact ⟨place, bound, asked, hkept⟩

theorem bind (h : start.Sound) (place : ι) : (start.bind (Context.at place)).2.Sound := by
  cases hbound : start.bound with
  | some d =>
    rw [bind_of_bound hbound]
    exact h
  | none =>
    rw [bind_of_unbound hbound]
    refine ⟨h.proper, ?_, h.coherent⟩
    rintro c ⟨⟩
    exact ⟨place, rfl⟩

theorem quiet_of_consulted (h : start.Sound) (hconsulted : Consulted start u) : Quiet start u := by
  cases hconsulted with
  | quiet quiet => exact quiet
  | @read c name bound stays cache around =>
    obtain ⟨place, rfl⟩ := h.placed c bound
    exact ⟨stays, cache, around.trans (Context.property_at name)⟩

end World.Sound

/-- What a slice of a query comes to. -/
structure Query.Post (q : Query ι α) (start : World α (Contexts ι α)) (o : Option (Reply α))
    (u : World α (Contexts ι α)) : Prop where
  stays : Stays start u
  sound : start.Sound → u.Sound
  /-- A registration that does not succeed, or not yet, has changed nothing. -/
  quiet : start.Sound → ∀ reg, q.Registers reg → (∀ a, o ≠ some (.ok a)) → Quiet start u
  done : start.Sound → ∀ reg, q.Registers reg → ∀ a, o = some (.ok a) →
    ∃ r b, q.Registers r ∧ a = some b ∧ start.TakesIn u r b

namespace Query.Post

variable {q : Query ι α} {start u : World α (Contexts ι α)} {o : Option (Reply α)}

theorem of_not_registers (hq : ∀ reg, ¬ q.Registers reg) (hstays : Stays start u)
    (hsound : start.Sound → u.Sound) : q.Post start o u where
  stays := hstays
  sound := hsound
  quiet _ reg hreg := absurd hreg (hq reg)
  done _ reg hreg := absurd hreg (hq reg)

theorem of_found {type : TypeName} {given : Option α} (hq : ∀ reg, ¬ q.Registers reg)
    (h : Found type start given u) : q.Post start o u :=
  of_not_registers hq (Stays.of_eq h.stays) fun hsound => hsound.found h

theorem of_registered {reg : Registration α} {o : Option (Except RegistryError α)}
    (hreg : q.Registers reg) (h : Registered reg start (instance? o) u) :
    q.Post start (o.map fun r => r.map some) u where
  stays := Stays.of_eq h.stays
  sound hsound := hsound.registered h
  quiet hsound _ _ hunsuccessful := by
    have hnone : instance? o = none := by
      rcases o with _ | e | a
      · rfl
      · rfl
      · exact absurd rfl (hunsuccessful (some a))
    rw [hnone] at h
    exact hsound.quiet_of_registered h
  done hsound _ _ a ha := by
    rcases o with _ | e | b
    · cases ha
    · cases ha
    · cases ha
      exact ⟨reg, b, hreg, rfl, hsound.carried_out_of_registered h⟩

end Query.Post

/-- **Slices of queries.** -/
theorem Query.works (q : Query ι α) (w : World α (Contexts ι α)) :
    q.action.Works Stays q.Post w w := by
  cases q with
  | bind place =>
    apply Call.works_replied
    refine Call.works_immediately (.of_not_registers (fun _ => not_false) ?_ fun hsound =>
      hsound.bind place)
    cases hbound : w.bound with
    | none =>
      intro c hc
      rw [hbound] at hc
      cases hc
    | some d =>
      rw [bind_of_bound hbound]
      exact Stays.refl w
  | consult call h =>
    apply Call.works_replied
    refine (h.works w).imp fun start o t ht => ?_
    exact .of_not_registers (fun _ => not_false) (Stays.of_eq ht.stays) fun hsound =>
      hsound.quiet (hsound.quiet_of_consulted ht)
  | of type =>
    apply Call.works_replied
    exact (Call.works_of type w).imp fun start o t h => .of_found (fun _ => not_false) h
  | get type =>
    apply Call.works_replied
    exact Call.works_immediately (.of_found (fun _ => not_false) (found_get type w))
  | add b =>
    apply Call.works_replied
    have hbound := bound_remember b.type b w
    refine Call.works_immediately (.of_not_registers (fun _ => not_false) (Stays.of_eq hbound) ?_)
    intro hsound
    exact hsound.keeps (keeps_remember b.type b w) rfl hbound hsound.coherent
  | register b =>
    apply Call.works_replied
    refine (Call.works_registerNamed b.type.beanName b (Quiet.refl w)).imp ?_
    exact fun start o t h => .of_registered rfl h
  | registerNamed name b =>
    apply Call.works_replied
    refine (Call.works_registerNamed name b (Quiet.refl w)).imp ?_
    exact fun start o t h => .of_registered rfl h
  | registerWith r blank content fields =>
    apply Call.works_replied
    refine (Call.works_registerWith r blank content fields w).imp ?_
    rintro start o t ⟨x, h⟩
    exact .of_registered ⟨x, rfl⟩ h
  | clearCache =>
    apply Call.works_replied
    refine Call.works_immediately (.of_not_registers (fun _ => not_false) (Stays.refl w) ?_)
    intro hsound
    exact ⟨by rintro type b ⟨⟩, hsound.placed, hsound.coherent⟩

/-! ## Answers -/

/-- Where a bean of another type is met, it is kept. -/
def World.Exposes {ω β : Type} (r : Except RegistryError β) (w : World α ω) : Prop :=
  ∀ type, r = .error (.typeMismatch type) → ∃ b, w.kept type = some b ∧ b.type ≠ type

theorem World.Exposes.map {ω β γ : Type} {r : Except RegistryError β} {w : World α ω}
    (h : w.Exposes r) (f : β → γ) : w.Exposes (r.map f) := by
  rintro type htype
  cases r with
  | ok b => cases htype
  | error e =>
    cases htype
    exact h type rfl

namespace Call

variable {ω β : Type} {w : World α ω} {type : TypeName} {b : Bean α}

theorem exposes_as (h : w.kept type = some b) : World.Exposes (b.as type) w := by
  intro other hother
  rw [Bean.as] at hother
  split at hother
  · cases hother
  · rename_i hne
    cases hother
    exact ⟨b, h, hne⟩

theorem exposes_remember (type : TypeName) (b : Bean α) (w : World α ω) :
    World.Exposes (w.remember type b).1 (w.remember type b).2 := by
  rw [fst_remember]
  refine exposes_as ?_
  rw [keeps_remember type b w type, if_pos rfl]

theorem exposes_registerIn (c : Container α ω) (r : Registration α) (w : World α ω) :
    World.Exposes (World.registerIn c r w).1 (World.registerIn c r w).2 := by
  rw [World.registerIn]
  rcases c.register r w.around with ⟨e | _, around⟩
  · rintro type ⟨⟩
  · exact exposes_remember r.bean.type r.bean { w with around }

theorem answers_container_bind {k : Container α ω → Call α ω β}
    (h : ∀ c u, Action.Answers World.Exposes (ExceptT.run (k c)) u) :
    Action.Answers World.Exposes (ExceptT.run (container >>= k)) w := by
  refine answers_bind (answers_container h ?_ ?_)
  · rintro waited u type ⟨⟩
  · rintro u type ⟨⟩

theorem answers_of (type : TypeName) (w : World α ω) :
    Action.Answers World.Exposes (ExceptT.run (of type)) w := by
  apply answers_get
  dsimp only
  cases hkept : w.registry.cache.lookup type with
  | some b => exact exposes_as hkept
  | none =>
    apply answers_container_bind
    intro c u
    refine answers_get (answers_bind (answers_await ?_ ?_ ?_))
    · exact fun b v => exposes_remember type b v
    · rintro v other ⟨⟩
    · rintro v other ⟨⟩

theorem answers_registerNamed (name : String) (b : Bean α) (w : World α ω) :
    Action.Answers World.Exposes (ExceptT.run (registerNamed name b)) w :=
  answers_container_bind fun c u => exposes_registerIn c ⟨name, b⟩ u

theorem answers_registerWith {σ : Type} (r : Record σ) (blank : σ) (content : σ → α)
    (fields : List (String × Value)) (w : World α ω) :
    Action.Answers World.Exposes (ExceptT.run (registerWith r blank content fields)) w := by
  apply answers_bind
  apply answers_immediately
  rcases World.fill r blank fields w with ⟨e | x, u⟩
  · rintro type ⟨⟩
  · exact answers_registerNamed _ _ u

end Call

/-- **Answers of queries.** -/
theorem Query.answers (q : Query ι α) (w : World α (Contexts ι α)) :
    q.action.Answers World.Exposes w := by
  cases q with
  | bind place =>
    apply Call.answers_replied
    rintro type htype
    cases hbound : w.bound with
    | none =>
      rw [bind_of_unbound hbound] at htype
      cases htype
    | some d =>
      rw [bind_of_bound hbound] at htype
      cases htype
  | consult call h =>
    apply Call.answers_replied
    refine (h.failsBy w).imp ?_
    intro r u hr
    refine World.Exposes.map (fun type htype => ?_) _
    cases hr _ htype
  | of type =>
    apply Call.answers_replied
    exact (Call.answers_of type w).imp fun r u h => h.map some
  | get type =>
    apply Call.answers_replied
    rintro type ⟨⟩
  | add b => exact Call.answers_replied ((Call.exposes_remember b.type b w).map some)
  | register b =>
    apply Call.answers_replied
    exact (Call.answers_registerNamed _ b w).imp fun r u h => h.map some
  | registerNamed name b =>
    apply Call.answers_replied
    exact (Call.answers_registerNamed name b w).imp fun r u h => h.map some
  | registerWith r blank content fields =>
    apply Call.answers_replied
    exact (Call.answers_registerWith r blank content fields w).imp fun r u h => h.map some
  | clearCache =>
    apply Call.answers_replied
    rintro type ⟨⟩

/-! ## Courses -/

/-- A registration that does not succeed, or not yet, changes neither what is kept nor the
contexts; one that succeeds is carried out; and no bean of another type is met. -/
structure Turn.Proper (t : Turn ι α) : Prop where
  unchanged : ∀ reg, t.query.Registers reg → (∀ a, t.reply ≠ some (.ok a)) →
    t.after.registry.cache = t.before.registry.cache ∧ t.after.around = t.before.around
  carried_out : ∀ reg, t.query.Registers reg → ∀ a, t.reply = some (.ok a) →
    ∃ r b, t.query.Registers r ∧ a = some b ∧ t.before.TakesIn t.after r b
  matched : ∀ type, t.reply ≠ some (.error (.typeMismatch type))

/-- In a sound world a slice is proper: a bean of another type that it meets would be kept. -/
theorem Query.Post.proper {q : Query ι α} {start u : World α (Contexts ι α)}
    {o : Option (Reply α)} (h : q.Post start o u) (hstart : start.Sound)
    (hexposes : ∀ r, o = some r → u.Exposes r) : Turn.Proper ⟨q, start, o, u⟩ where
  unchanged reg hreg hunsuccessful :=
    have hquiet := h.quiet hstart reg hreg hunsuccessful
    ⟨hquiet.cache, hquiet.around⟩
  carried_out := h.done hstart
  matched type htype := by
    obtain ⟨b, hkept, hne⟩ := hexposes _ htype type rfl
    exact hne ((h.sound hstart).proper type b hkept)

namespace Course

/-- The action carries a query on in proper slices, whatever others do. -/
structure CarriesOn (w : World α (Contexts ι α)) (q : Query ι α)
    (a : Action (World α (Contexts ι α)) (Reply α)) : Prop where
  works : ∀ u, Stays w u → a.Works Stays q.Post u u
  answers : ∀ u, a.Answers World.Exposes u

/-- The world is sound, the turns were proper, and so are those to come of the calls that
sleep. -/
structure Valid (c : Course ι α) : Prop where
  sound : c.world.Sound
  turns : ∀ t : Turn ι α, t ∈ c.turns → t.Proper
  sleeping : ∀ q a, (q, a) ∈ c.sleeping → CarriesOn c.world q a

variable {c : Course ι α} {q : Query ι α} {a : Action (World α (Contexts ι α)) (Reply α)}
  {w u : World α (Contexts ι α)}

theorem CarriesOn.action (w : World α (Contexts ι α)) (q : Query ι α) : CarriesOn w q q.action :=
  ⟨fun u _ => q.works u, fun u => q.answers u⟩

theorem CarriesOn.of_stays (h : CarriesOn w q a) (hstays : Stays w u) : CarriesOn u q a :=
  ⟨fun v hv => h.works v (hstays.trans hv), h.answers⟩

theorem Valid.concat (h : c.Valid) {t : Turn ι α}
    {sleeping : List (Query ι α × Action (World α (Contexts ι α)) (Reply α))}
    (hstays : Stays c.world t.after) (hsound : t.after.Sound) (ht : t.Proper)
    (hsleeping : ∀ q a, (q, a) ∈ sleeping → (q, a) ∈ c.sleeping ∨ CarriesOn t.after q a) :
    Valid ⟨t.after, sleeping, c.turns ++ [t]⟩ where
  sound := hsound
  turns u hu := by
    rcases List.mem_append.mp hu with hu | hu
    · exact h.turns u hu
    · rw [List.mem_singleton.mp hu]
      exact ht
  sleeping q a hmem := by
    rcases hsleeping q a hmem with hold | hnew
    · exact (h.sleeping q a hold).of_stays hstays
    · exact hnew

/-- **One slice** of a query keeps the course valid. -/
theorem Valid.work (h : c.Valid) (hcarries : CarriesOn c.world q a)
    {sleeping : List (Query ι α × Action (World α (Contexts ι α)) (Reply α))}
    (hsleeping : ∀ p ∈ sleeping, p ∈ c.sleeping) (now : Nat) :
    (c.work q a sleeping now).Valid := by
  have htrans : ∀ w u v : World α (Contexts ι α), Stays w u → Stays u v → Stays w v :=
    fun _ _ _ => Stays.trans
  have hslice := (hcarries.works _ (Stays.refl _)).advance htrans now
  have hanswer := (hcarries.answers c.world).advance now
  rw [Course.work]
  split
  · rename_i reply after hadvance
    rw [hadvance] at hslice hanswer
    refine h.concat hslice.stays (hslice.sound h.sound) (hslice.proper h.sound ?_) ?_
    · rintro r ⟨⟩
      exact hanswer
    · exact fun q a hmem => .inl (hsleeping _ hmem)
  · rename_i rest instant after hadvance
    rw [hadvance] at hslice hanswer
    obtain ⟨hpost, hrest⟩ := hslice
    refine h.concat hpost.stays (hpost.sound h.sound) (hpost.proper h.sound ?_) ?_
    · rintro r ⟨⟩
    · intro q' a' hmem
      rcases List.mem_append.mp hmem with hmem | hmem
      · exact .inl (hsleeping _ hmem)
      · cases List.mem_singleton.mp hmem
        exact .inr ⟨hrest, hanswer⟩

/-- **One event** keeps a course valid. -/
theorem Valid.step (h : c.Valid) (e : Happening ι α) : (c.step e).Valid := by
  cases e with
  | ask q now => exact h.work (.action _ q) (fun _ hp => hp) now
  | wake position now =>
    rw [Course.step]
    cases hp : c.sleeping[position]? with
    | none => exact h
    | some p =>
      obtain ⟨q, rest⟩ := p
      have hcarries := h.sleeping q rest (List.mem_of_getElem? hp)
      exact h.work hcarries (fun _ hp => List.mem_of_mem_eraseIdx hp) now
  | register place r =>
    refine ⟨⟨h.sound.proper, h.sound.placed, ?_⟩, h.turns, ?_⟩
    · exact Context.coherent_register_at h.sound.coherent r
    · exact fun q a hmem => (h.sleeping q a hmem).of_stays (Stays.of_eq rfl)

theorem valid_start (settings : Settings) (introspector : Introspector)
    (environments : ι → Environment) (policies : ι → OverridePolicy) :
    (start (α := α) settings introspector environments policies).Valid where
  sound := by
    refine ⟨?_, ?_, fun place => .new (environments place) (policies place)⟩
    · rintro type b ⟨⟩
    · rintro c ⟨⟩
  turns := by rintro t ⟨⟩
  sleeping := by rintro q a ⟨⟩

/-- **Runs.** Events keep a course valid. -/
theorem Valid.run (h : c.Valid) (events : List (Happening ι α)) : (c.run events).Valid := by
  induction events generalizing c with
  | nil => exact h
  | cons e rest ih => exact ih (h.step e)

/-- **Failed registrations change nothing.** Whatever happens in a program with a registry
and contexts, a turn of a registration that fails, or that has not succeeded yet, leaves the
kept beans and all contexts as they were, with their beans and names. One that succeeds has
been carried out by the bound context, and gives the kept instance. No call whatever fails by
a bean of another type. -/
theorem failed_registrations_change_nothing (settings : Settings) (introspector : Introspector)
    (environments : ι → Environment) (policies : ι → OverridePolicy)
    (events : List (Happening ι α)) :
    ∀ t ∈ ((start settings introspector environments policies).run events).turns,
      (∀ reg, t.query.Registers reg → (∀ a, t.reply ≠ some (.ok a)) →
        t.after.registry.cache = t.before.registry.cache ∧ t.after.around = t.before.around) ∧
      (∀ reg, t.query.Registers reg → ∀ a, t.reply = some (.ok a) →
        ∃ r b, t.query.Registers r ∧ a = some b ∧ t.before.TakesIn t.after r b) ∧
      (∀ type, t.reply ≠ some (.error (.typeMismatch type))) := by
  intro t ht
  have h := ((valid_start settings introspector environments policies).run events).turns t ht
  exact ⟨h.unchanged, h.carried_out, h.matched⟩

/-- A second lamp is refused under any name, and the first one stays where it was. -/
theorem second_lamp_refused :
    let lamp (n : Nat) : Bean Nat := ⟨⟨"home::Lamp"⟩, n⟩
    let events : List (Happening Unit Nat) :=
      [.ask (.bind ()) 0, .ask (.registerNamed "lamp" (lamp 1)) 0,
        .ask (.registerNamed "light" (lamp 2)) 0]
    let course := (start .standard {} (fun _ => .empty) fun _ => .reject).run events
    ∃ t ∈ course.turns, t.reply = some (.error (.context (.duplicateBean "light"))) ∧
      t.before.registry.cache = [(⟨"home::Lamp"⟩, lamp 1)] ∧
      t.after.registry.cache = [(⟨"home::Lamp"⟩, lamp 1)] ∧ t.after.around = t.before.around := by
  intro lamp events course
  obtain ⟨t, ht, hreg, hreply, hcache⟩ : ∃ t, course.turns[2]? = some t ∧
      t.query.Registers ⟨"light", lamp 2⟩ ∧
      t.reply = some (.error (.context (.duplicateBean "light"))) ∧
      t.before.registry.cache = [(⟨"home::Lamp"⟩, lamp 1)] := ⟨_, rfl, rfl, rfl, rfl⟩
  have hmem : t ∈ course.turns := List.mem_of_getElem? ht
  have hunsuccessful : ∀ a, t.reply ≠ some (.ok a) := by
    rw [hreply]
    rintro a ⟨⟩
  have h := failed_registrations_change_nothing .standard {} (fun _ => .empty)
    (fun _ => .reject) events t hmem
  obtain ⟨hkept, haround⟩ := h.1 _ hreg hunsuccessful
  exact ⟨t, hmem, hreply, hcache, hkept.trans hcache, haround⟩

end Course

end Wiring
