import Wiring.Proofs.Registry.Singletons

/-!
# Beans of another type

A container may answer with a bean of another type than it was asked for. Such a
bean is kept before its type is looked at: the call that has found it fails, and
so does every later call for the type until the cache is cleared, whatever the
container has learnt meanwhile. Nothing else that goes wrong leaves a trace.
-/

namespace Wiring

open World

variable {α ω : Type}

/-- The slice wants a bean of the type, has none kept, and finds one of another type. -/
structure Slice.Misled (s : Slice α ω) (type : TypeName) (b : Bean α) : Prop where
  wants : s.request.Wants type
  free : s.before.kept type = none
  foreign : b.type ≠ type
  looked : ∃ c, s.accesses = [.lookup c type (some b)]

/-! ## One slice -/

theorem Request.Wants.type_eq {q : Request α ω} {type other : TypeName} (h : q.Wants type)
    (h' : q.Wants other) : type = other := by
  have heq := h.type?_eq.symm.trans h'.type?_eq
  exact Option.some.inj heq

theorem Request.Wants.not_registers {q : Request α ω} {type other : TypeName} (h : q.Wants type) :
    ¬ q.Registers other := by
  rcases h with rfl | rfl <;> exact id

namespace World.Keeps

variable {w u : World α ω} {type other : TypeName} {b kept : Bean α}

/-- What is newly kept is the bean, for its type. -/
theorem new (h : Keeps type b w u) (hfree : w.kept other = none)
    (hkept : u.kept other = some kept) : other = type ∧ kept = b := by
  rw [h other] at hkept
  split at hkept
  · rename_i hother
    subst hother
    rw [hfree, Option.getD_none] at hkept
    exact ⟨rfl, (Option.some.inj hkept).symm⟩
  · rw [hfree] at hkept
    cases hkept

end World.Keeps

namespace Slice

variable {s : Slice α ω} {type : TypeName} {a : α} {b : Bean α}

/-- A wish finds no bean and leaves the cache alone, or it finds one, keeps it unless there
is one, and gives what is kept then if that is of the type. -/
theorem Lawful.wanted_cases (h : s.Lawful) (hwants : s.request.Wants type) :
    ((∀ c b, s.accesses ≠ [.lookup c type (some b)]) ∧
      s.after.registry.cache = s.before.registry.cache) ∨
    (∃ c b, s.accesses = [.lookup c type (some b)] ∧ Keeps type b s.before s.after ∧
      given? s.reply = (((s.before.kept type).getD b).as type).toOption) := by
  obtain ⟨request, since, before, reply, after⟩ := s
  obtain ⟨hpost, hsilent, hnoting⟩ := h
  have hsilent : before.around.2 = [] := hsilent
  cases hpost with
  | bound | refused | added | cleared => rcases hwants with h | h <;> cases h
  | registered registers _ => exact absurd registers hwants.not_registers
  | wanted wants found =>
    cases hwants.type_eq wants
    dsimp only [accesses]
    generalize given? reply = given at found ⊢
    cases found with
    | idle quiet _ =>
      refine .inl ⟨?_, quiet.cache⟩
      rw [quiet.around, hsilent]
      rintro c b ⟨⟩
    | absent bound looked _ cache =>
      obtain ⟨c, rfl⟩ := hnoting _ bound
      refine .inl ⟨?_, cache⟩
      rw [(Container.lookup_noted looked).2, hsilent]
      rintro c b ⟨⟩
    | @found _ b _ bound looked _ keeps =>
      obtain ⟨c, rfl⟩ := hnoting _ bound
      refine .inr ⟨c, b, ?_, keeps, rfl⟩
      rw [(Container.lookup_noted looked).2, hsilent]
      rfl

/-- A container accepts no registration, or the call gives what is kept then if that is of
the type. -/
theorem Lawful.registered_cases (h : s.Lawful) (hregisters : s.request.Registers type) :
    (∀ c r, s.accesses ≠ [.register c r (.ok ())]) ∨
    (∃ b, b.type = type ∧
      given? s.reply = (((s.before.kept type).getD b).as type).toOption) := by
  obtain ⟨request, since, before, reply, after⟩ := s
  obtain ⟨hpost, hsilent, hnoting⟩ := h
  have hsilent : before.around.2 = [] := hsilent
  cases hpost with
  | bound | refused | added | cleared => exact hregisters.elim
  | wanted wants _ => exact absurd hregisters wants.not_registers
  | @registered _ r registers registered =>
    have htype : r.bean.type = type :=
      Option.some.inj (registers.type?_eq.symm.trans hregisters.type?_eq)
    dsimp only [accesses] at registered ⊢
    generalize given? reply = given at registered ⊢
    cases registered with
    | idle quiet =>
      refine .inl ?_
      rw [quiet.around, hsilent]
      rintro c r ⟨⟩
    | refused bound asked _ _ =>
      obtain ⟨c, rfl⟩ := hnoting _ bound
      refine .inl ?_
      rw [Container.register_noted asked, hsilent]
      rintro d r ⟨⟩
    | done _ _ _ _ =>
      refine .inr ⟨r.bean, htype, ?_⟩
      rw [htype]

/-- A slice that is misled keeps what it has found. -/
theorem Lawful.kept_of_misled (h : s.Lawful) (hmisled : s.Misled type b) :
    s.after.kept type = some b := by
  obtain ⟨c, hlooked⟩ := hmisled.looked
  rcases h.wanted_cases hmisled.wants with ⟨hnone, -⟩ | ⟨d, found, hfound, keeps, -⟩
  · exact absurd hlooked (hnone c b)
  · rw [hlooked] at hfound
    cases hfound
    rw [keeps type, if_pos rfl, hmisled.free, Option.getD_none]

/-- A bean of another type is only kept when a slice is misled. -/
theorem Lawful.misled_of_foreign (h : s.Lawful) (hfree : s.before.kept type = none)
    (hkept : s.after.kept type = some b) (hforeign : b.type ≠ type) : s.Misled type b := by
  have hchanged : s.after.registry.cache ≠ s.before.registry.cache := by
    intro cache
    rw [World.kept, cache, ← World.kept, hfree] at hkept
    cases hkept
  -- A bean that a call brings along is kept for its own type.
  have hown : ∀ own : Bean α, ¬ Keeps own.type own s.before s.after := by
    intro own keeps
    obtain ⟨htype, hb⟩ := keeps.new hfree hkept
    rw [hb, htype] at hforeign
    exact hforeign rfl
  by_cases hwants : s.request.Wants type
  · rcases h.wanted_cases hwants with ⟨-, cache⟩ | ⟨c, found, hlooked, keeps, -⟩
    · exact absurd cache hchanged
    · obtain ⟨-, rfl⟩ := keeps.new hfree hkept
      exact ⟨hwants, hfree, hforeign, c, hlooked⟩
  · obtain ⟨request, since, before, reply, after⟩ := s
    cases h.post with
    | bound _ _ _ cache _ => exact absurd cache hchanged
    | refused _ quiet => exact absurd quiet.cache hchanged
    | added _ keeps _ _ => exact absurd keeps (hown _)
    | cleared _ cache _ _ =>
      rw [World.kept, cache] at hkept
      cases hkept
    | wanted wants found =>
      obtain ⟨rfl, -⟩ := found.keeping.given_or_foreign hfree hkept
      exact absurd wants hwants
    | registered _ registered =>
      dsimp only at registered
      generalize given? reply = given at registered
      cases registered with
      | idle quiet => exact absurd quiet.cache hchanged
      | refused _ _ _ cache => exact absurd cache hchanged
      | done _ _ _ keeps => exact absurd keeps (hown _)

/-- **What a slice does to the cache.** It leaves what is kept for a type, or it keeps an
instance that it gives, or it is misled. -/
theorem Lawful.kept_cases (h : s.Lawful) (hclears : ¬ s.Clears) (type : TypeName) :
    s.after.kept type = s.before.kept type ∨
    (∃ a, s.before.kept type = none ∧ s.after.kept type = some ⟨type, a⟩ ∧ s.Gives type a) ∨
    (∃ b, s.after.kept type = some b ∧ s.Misled type b) := by
  cases hbefore : s.before.kept type with
  | some b => exact .inl (h.kept_of_kept hclears hbefore)
  | none =>
    cases hafter : s.after.kept type with
    | none => exact .inl rfl
    | some b =>
      rcases h.gives_or_foreign hbefore hafter with ⟨a, hgives⟩ | hforeign
      · obtain ⟨kept, hkept, has⟩ := h.kept_of_gives hgives
        rw [hafter] at hkept
        cases hkept
        exact .inr (.inl ⟨a, rfl, by rw [eq_of_as has], hgives⟩)
      · exact .inr (.inr ⟨b, rfl, h.misled_of_foreign hbefore hafter hforeign⟩)

/-- **One wish that is not granted** leaves the cache alone just when it is not misled. -/
theorem Lawful.kept_iff_not_misled (h : s.Lawful) (hwants : s.request.Wants type)
    (hfails : ∀ a, ¬ s.Gives type a) :
    (∀ other, s.after.kept other = s.before.kept other) ↔ ∀ b, ¬ s.Misled type b := by
  constructor
  · intro hsame b hmisled
    have hkept := h.kept_of_misled hmisled
    rw [hsame type, hmisled.free] at hkept
    cases hkept
  · intro hnot other
    -- Whatever is new in the cache is new for the type that is wanted.
    rcases h.kept_cases (not_clears hwants.type?_eq) other with
      hsame | ⟨a, -, -, hgives⟩ | ⟨b, -, hmisled⟩
    · exact hsame
    · have htype : type = other := Option.some.inj (hwants.type?_eq.symm.trans hgives.1)
      subst htype
      exact absurd hgives (hfails a)
    · cases hwants.type_eq hmisled.wants
      exact absurd hmisled (hnot b)

/-- No call gives an instance of a type for which another bean is kept. -/
theorem Lawful.not_gives_of_foreign (h : s.Lawful) (hkept : s.before.kept type = some b)
    (hforeign : b.type ≠ type) : ¬ s.Gives type a := by
  intro hgives
  obtain ⟨kept, hafter, has⟩ := h.kept_of_gives hgives
  rw [h.kept_of_kept (not_clears hgives.1) hkept] at hafter
  cases hafter
  exact hforeign (congrArg Bean.type (eq_of_as has))

/-- With only beans of a type kept for it, what is kept in the end is of the type. -/
theorem as_getD (hproper : ∀ k, s.before.kept type = some k → k.type = type) (hb : b.type = type) :
    ((s.before.kept type).getD b).as type = .ok ((s.before.kept type).getD b).content := by
  apply as_of_type
  cases hkept : s.before.kept type with
  | none => exact hb
  | some k => exact hproper k hkept

/-- A bean of the type that is found is given, or the one that was kept before it. -/
theorem Lawful.gives_of_looked (h : s.Lawful) {c : Container α ω} (hwants : s.request.Wants type)
    (hlooked : s.accesses = [.lookup c type (some ⟨type, a⟩)])
    (hproper : ∀ k, s.before.kept type = some k → k.type = type) :
    s.Gives type ((s.before.kept type).getD ⟨type, a⟩).content := by
  rcases h.wanted_cases hwants with ⟨hnone, -⟩ | ⟨d, b, hfound, -, hgiven⟩
  · exact absurd hlooked (hnone c _)
  · rw [hlooked] at hfound
    cases hfound
    rw [as_getD hproper rfl] at hgiven
    exact ⟨hwants.type?_eq, eq_of_given? hgiven⟩

/-- A bean that is registered is given, or the one that was kept before it. -/
theorem Lawful.gives_of_registered (h : s.Lawful) {c : Container α ω} {r : Registration α}
    (hregisters : s.request.Registers type) (hasked : s.accesses = [.register c r (.ok ())])
    (hproper : ∀ k, s.before.kept type = some k → k.type = type) : ∃ a, s.Gives type a := by
  rcases h.registered_cases hregisters with hnone | ⟨b, htype, hgiven⟩
  · exact absurd hasked (hnone c r)
  · rw [as_getD hproper htype] at hgiven
    exact ⟨_, hregisters.type?_eq, eq_of_given? hgiven⟩

end Slice

/-! ## Histories -/

namespace Session.Valid

variable {r : Registry α (Noted α ω)} {session : Session α ω} {s t : Slice α ω} {i j : Nat}
  {type : TypeName} {b : Bean α}

/-- As long as no slice is misled about a type, only beans of the type are kept for it. -/
theorem proper_until (h : session.Valid r) (hempty : r.cache = [])
    (ht : session.history[j]? = some t)
    (hmisled : ∀ i s b, i < j → session.history[i]? = some s → s.Misled type b →
      ClearedBetween session.history i j) :
    ∀ b, t.before.kept type = some b → b.type = type := by
  refine h.kept_unless (fun b => b.type = type) (fun s => ∃ b, s.Misled type b) hempty ?_ ht ?_
  · intro u hlawful hnot b hnone hb
    apply Classical.byContradiction
    intro hforeign
    exact hnot ⟨b, hlawful.misled_of_foreign hnone hb hforeign⟩
  · rintro i s hij hs ⟨b, hspoils⟩
    exact hmisled i s b hij hs hspoils

/-- What a misled slice has found is kept, and until the cache is cleared no call for the
type gives an instance. -/
theorem blocked_until (h : session.Valid r) (hs : session.history[i]? = some s)
    (hmisled : s.Misled type b) (hij : i < j) (ht : session.history[j]? = some t)
    (hcleared : ¬ ClearedBetween session.history i j) :
    (∀ a, ¬ t.Gives type a) ∧ (t.request.Wants type → t.since = j → t.accesses = []) := by
  have hkept := (h.lawful_of_getElem? hs).kept_of_misled hmisled
  have hbefore := h.kept_until hs hkept hij ht hcleared
  refine ⟨fun a => (h.lawful_of_getElem? ht).not_gives_of_foreign hbefore hmisled.foreign, ?_⟩
  intro hwants hsince
  rcases h.begun j t ht with ⟨-, hprompt⟩ | ⟨hlt, -⟩
  · exact (hprompt type b hwants hbefore).1
  · rw [hsince] at hlt
    exact absurd hlt (Nat.lt_irrefl j)

end Session.Valid

/-- **What failures leave behind.** In every session with a new registry, whatever containers
answer:

* a wish that is not granted leaves every kept bean as it was, and keeps none, just when
  it is not misled by a bean of another type;
* once a call was misled, no call for the type gives an instance and no new wish asks a
  container, until the cache is cleared;
* otherwise a wish that finds a bean of the type is granted, and a registration that the
  container accepts is too, whatever failed before. -/
theorem failures_keep_nothing_unless_misled (settings : Settings) (introspector : Introspector)
    (o : ω) (events : List (Event α ω)) (type : TypeName) :
    let history := ((Session.start settings introspector o).run events).history
    (∀ t ∈ history, t.request.Wants type → (∀ a, ¬ t.Gives type a) →
      ((∀ other, t.after.kept other = t.before.kept other) ↔ ∀ b, ¬ t.Misled type b)) ∧
    (∀ (i j : Nat) (s t : Slice α ω) (b : Bean α), i < j →
      history[i]? = some s → history[j]? = some t → s.Misled type b →
      ¬ ClearedBetween history i j →
      (∀ a, ¬ t.Gives type a) ∧ (t.request.Wants type → t.since = j → t.accesses = [])) ∧
    (∀ (j : Nat) (t : Slice α ω) (c : Container α ω), history[j]? = some t →
      (∀ (i : Nat) (s : Slice α ω) (b : Bean α), i < j → history[i]? = some s →
        s.Misled type b → ClearedBetween history i j) →
      (∀ a, t.request.Wants type → t.accesses = [.lookup c type (some ⟨type, a⟩)] →
        t.Gives type ((t.before.kept type).getD ⟨type, a⟩).content) ∧
      (∀ r, t.request.Registers type → t.accesses = [.register c r (.ok ())] →
        ∃ a, t.Gives type a)) := by
  intro history
  have h := (Session.valid_start (α := α) settings introspector o).run events
  refine ⟨?_, ?_, ?_⟩
  · intro t ht hwants hfails
    exact (h.lawful t ht).kept_iff_not_misled hwants hfails
  · intro i j s t b hij hs ht hmisled hcleared
    exact h.blocked_until hs hmisled hij ht hcleared
  · intro j t c ht hmisled
    have hproper := h.proper_until rfl ht hmisled
    have hlawful := h.lawful_of_getElem? ht
    constructor
    · intro a hwants hlooked
      exact hlawful.gives_of_looked hwants hlooked hproper
    · intro r hregisters hasked
      exact hlawful.gives_of_registered hregisters hasked hproper

/-- A container that answers every lookup with what was last put into it. -/
def drawer : Container Nat (List (Bean Nat)) where
  lookup _ s := (s.head?, s)
  register r s := (.ok (), r.bean :: s)
  property _ s := (none, s)

/-- A wish that is not granted keeps a clock for a lamp, and later there is no way to the
lamp that the drawer has by then. -/
theorem misled_by_a_clock :
    let lamp : TypeName := ⟨"home::Lamp"⟩
    let clock : TypeName := ⟨"home::Clock"⟩
    let events : List (Event Nat (List (Bean Nat))) :=
      [.ask (.bind drawer) 0, .outside fun _ => [⟨clock, 1⟩], .ask (.get lamp) 1,
        .outside fun _ => [⟨lamp, 7⟩], .ask (.get lamp) 2, .ask (.of lamp) 3,
        .ask (.register ⟨lamp, 8⟩) 4]
    let history := ((Session.start .standard {} []).run events).history
    history.map (fun t => (t.reply, t.before.kept lamp, t.after.kept lamp)) =
      [(some (.ok none), none, none), (some (.ok none), none, some ⟨clock, 1⟩),
        (some (.ok none), some ⟨clock, 1⟩, some ⟨clock, 1⟩),
        (some (.error (.typeMismatch lamp)), some ⟨clock, 1⟩, some ⟨clock, 1⟩),
        (some (.error (.typeMismatch lamp)), some ⟨clock, 1⟩, some ⟨clock, 1⟩)] := by
  rfl

end Wiring
