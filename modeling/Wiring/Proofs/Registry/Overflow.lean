import Wiring.Proofs.Container.Naming
import Wiring.Proofs.Registry.Consulting
import Wiring.Proofs.Registry.Waits

/-!
# Calls and the end of the clock

A call overflows just when a wait that it comes to does: the wait for the container, if
none is bound, and for a bean that is not kept the wait in the container. The window of a
wait saturates, but the deadline does not, and it is fixed before the first check. So a
bean that the container holds is out of reach if the clock cannot tell the deadline.
-/

namespace Wiring

open World

variable {α ω β γ : Type}

/-- Looks for the bound container. -/
def World.seeBound (w : World α ω) : Option (Container α ω) × World α ω :=
  (w.bound, w)

/-- The wait for the container is needed, and needs instants beyond the clock. -/
def World.ContainerOverruns (w : World α ω) (moments : List (Moment (World α ω))) : Prop :=
  w.bound = none ∧ w.registry.settings.contextWait.OverrunsIn seeBound moments w

/-- The container is there, at once or after a wait, with moments to come and the world as it
is then. -/
inductive World.Obtains (w : World α ω) :
    List (Moment (World α ω)) → Container α ω → List (Moment (World α ω)) → World α ω → Prop
  | bound {c : Container α ω} {moments : List (Moment (World α ω))} (bound : w.bound = some c) :
    Obtains w moments c moments w
  | waited {c : Container α ω} {m : Moment (World α ω)} {rest : List (Moment (World α ω))}
    {r : WaitRun (World α ω) (Container α ω)} (unbound : w.bound = none)
    (run : w.registry.settings.contextWait.wait m.reading seeBound rest (m.effect w) = r)
    (found : r.outcome = some (.found c)) :
    Obtains w (m :: rest) c (rest.drop (r.checks - 1)) r.state

/-- The wait for the bean of a type in a container needs instants beyond the clock. -/
def World.BeanOverruns (w : World α ω) (c : Container α ω) (type : TypeName)
    (moments : List (Moment (World α ω))) : Prop :=
  w.registry.settings.beanWait.OverrunsIn (lookupIn c type) moments w

/-- The clock has room for every wait of the registry, as long as it lasts. -/
def World.HasRoom (w : World α ω) (moments : List (Moment (World α ω))) : Prop :=
  ∀ m ∈ moments, w.registry.settings.contextWait.HasRoom m.reading ∧
    w.registry.settings.beanWait.HasRoom m.reading ∧
    ∀ u, (m.effect u).registry.settings = u.registry.settings

namespace World.HasRoom

variable {moments later : List (Moment (World α ω))} {w u : World α ω} {c : Container α ω}

theorem not_containerOverruns (h : w.HasRoom moments) : ¬ w.ContainerOverruns moments :=
  fun hoverruns => WaitPolicy.not_overrunsIn_of_room (fun m hm => (h m hm).1) hoverruns.2

theorem not_beanOverruns (h : w.HasRoom moments) (c : Container α ω) (type : TypeName) :
    ¬ w.BeanOverruns c type moments :=
  WaitPolicy.not_overrunsIn_of_room fun m hm => (h m hm).2.1

theorem of_settings (h : w.HasRoom moments)
    (hsettings : u.registry.settings = w.registry.settings) (hlater : ∀ m ∈ later, m ∈ moments) :
    u.HasRoom later := by
  intro m hm
  rw [hsettings]
  exact h m (hlater m hm)

/-- A wait for the container leaves the settings, so there is room after it. -/
theorem obtains (h : w.HasRoom moments) (hobtains : w.Obtains moments c later u) :
    u.HasRoom later := by
  cases hobtains with
  | bound _ => exact h
  | @waited _ m rest _ _ run _ =>
    subst run
    refine h.of_settings ?_ fun n hn => List.mem_cons_of_mem m (List.mem_of_mem_drop hn)
    have hcheck : ∀ u : World α ω, u.registry.settings = w.registry.settings →
        (seeBound u).2.registry.settings = w.registry.settings := fun _ hu => hu
    have heffect : ∀ n ∈ m :: rest, ∀ u : World α ω, u.registry.settings = w.registry.settings →
        (n.effect u).registry.settings = w.registry.settings :=
      fun n hn u hu => ((h n hn).2.2 u).trans hu
    obtain ⟨hfirst, hrest⟩ := List.forall_mem_cons.mp heffect
    exact WaitPolicy.wait_keeps hcheck hrest (hfirst w rfl)

end World.HasRoom

namespace Call

/-- The answer of a call that is carried out against a course of events, if it comes to one. -/
def answer (call : Call α ω β) (moments : List (Moment (World α ω))) (w : World α ω) :
    Option (Except RegistryError β) :=
  (Action.run (ExceptT.run call) moments w).1

/-- The call overflows in no course of events. -/
abbrev Steady (call : Call α ω β) : Prop :=
  FailsBy (· ≠ .clockOverflow) call

/-- The operations that wait for nothing but the container. -/
inductive ThroughContainer : {β : Type} → Call α ω β → Prop
  | consults {β : Type} {call : Call α ω β} (h : Consults call) : ThroughContainer call
  | register (b : Bean α) : ThroughContainer (register b)
  | registerNamed (name : String) (b : Bean α) : ThroughContainer (registerNamed name b)

/-- The operations that need the container. -/
inductive Operation : {β : Type} → Call α ω β → Prop
  | direct {β : Type} {call : Call α ω β} (h : ThroughContainer call) : Operation call
  | of (type : TypeName) : Operation (of type)
  | registerWith {σ : Type} (r : Record σ) (blank : σ) (content : σ → α)
    (fields : List (String × Value)) : Operation (registerWith r blank content fields)

variable {moments : List (Moment (World α ω))} {w : World α ω}

/-! ## Calls that begin with a wait -/

theorem Steady.answer_ne {call : Call α ω β} (h : Steady call) :
    call.answer moments w ≠ some (.error .clockOverflow) := by
  intro hanswer
  exact (h w).run (Prod.ext hanswer rfl) _ rfl rfl

theorem run_await_bind (p : WaitPolicy) (late : RegistryError)
    (check : World α ω → Option β × World α ω) (k : β → Call α ω γ) :
    ExceptT.run (await p late check >>= k) =
      (Action.await p check).bind fun o =>
        match outcome late o with
        | .ok b => ExceptT.run (k b)
        | .error e => .done (.error e) := by
  show (((Action.await p check).bind _).bind _).bind _ = _
  rw [Action.bind_bind, Action.bind_bind]
  congr
  funext o
  cases o <;> rfl

/-- A wait in front decides the call unless it finds something. -/
theorem answer_await_bind_eq_overflow_iff {p : WaitPolicy} {late : RegistryError}
    (hlate : late ≠ .clockOverflow) {check : World α ω → Option β × World α ω}
    {k : β → Call α ω γ} :
    (await p late check >>= k).answer moments w = some (.error .clockOverflow) ↔
      p.OverrunsIn check moments w ∨
      (∃ b m rest, moments = m :: rest ∧
        let r := p.wait m.reading check rest (m.effect w)
        r.outcome = some (.found b) ∧
          (k b).answer (rest.drop (r.checks - 1)) r.state = some (.error .clockOverflow)) := by
  rw [answer, run_await_bind]
  cases moments with
  | nil =>
    -- Without a moment the wait does not even read the clock.
    refine iff_of_false (by rintro ⟨⟩) ?_
    rintro (hoverruns | ⟨b, m, rest, ⟨⟩, -⟩)
    exact hoverruns
  | cons m rest =>
    rw [Action.run_await, WaitPolicy.OverrunsIn, ← WaitPolicy.outcome_wait_eq_overflow_iff]
    cases hr : (p.wait m.reading check rest (m.effect w)).outcome with
    | none =>
      dsimp only
      rw [hr]
      refine iff_of_false (by rintro ⟨⟩) ?_
      rintro (⟨⟨⟩⟩ | ⟨b, n, later, ⟨⟩, hfound, -⟩)
      rw [hr] at hfound
      cases hfound
    | some o =>
      dsimp only
      rw [hr]
      cases o with
      | found b =>
        constructor
        · intro hb
          exact .inr ⟨b, m, rest, rfl, hr, hb⟩
        · rintro (⟨⟨⟩⟩ | ⟨b', n, later, ⟨⟩, hfound, hb⟩)
          rw [hr] at hfound
          cases hfound
          exact hb
      | timedOut =>
        refine iff_of_false ?_ ?_
        · intro hanswer
          exact hlate (Except.error.inj (Option.some.inj hanswer))
        · rintro (⟨⟨⟩⟩ | ⟨b, n, later, ⟨⟩, hfound, -⟩)
          rw [hr] at hfound
          cases hfound
      | overflow => exact iff_of_true rfl (.inl rfl)

theorem answer_await_bind_of_found {p : WaitPolicy} {late : RegistryError}
    {check : World α ω → Option β × World α ω} {k : β → Call α ω γ} {b : β}
    {m n : Moment (World α ω)} {rest : List (Moment (World α ω))}
    (h : (check (m.effect w)).1 = some b) :
    (await p late check >>= k).answer (m :: n :: rest) w =
      if latestInstant < m.reading + p.window.nanos then some (.error .clockOverflow)
      else (k b).answer (n :: rest) (check (m.effect w)).2 := by
  rw [answer, run_await_bind, Action.run_await, WaitPolicy.wait_of_found h]
  split <;> rfl

theorem answer_get_bind (k : World α ω → Call α ω β) :
    (get >>= k).answer moments w = (k w).answer moments w := rfl

theorem answer_container_bind_of_bound {c : Container α ω} (h : w.bound = some c)
    (k : Container α ω → Call α ω γ) :
    (container >>= k).answer moments w = (k c).answer moments w := by
  rw [container, bind_assoc, answer_get_bind]
  dsimp only
  rw [show w.registry.handle.bound = some c from h, pure_bind]

theorem answer_container_bind_of_unbound (h : w.bound = none) (k : Container α ω → Call α ω γ) :
    let p := w.registry.settings.contextWait
    (container >>= k).answer moments w =
      (await p (.containerNotReady p.window) seeBound >>= k).answer moments w := by
  rw [container, bind_assoc, answer_get_bind]
  dsimp only
  rw [show w.registry.handle.bound = none from h]
  rfl

/-- A call that first needs the container overflows in the wait for it, or afterwards. -/
theorem answer_container_bind_eq_overflow_iff {k : Container α ω → Call α ω γ} :
    (container >>= k).answer moments w = some (.error .clockOverflow) ↔
      w.ContainerOverruns moments ∨
      ∃ c later u, w.Obtains moments c later u ∧
        (k c).answer later u = some (.error .clockOverflow) := by
  cases hbound : w.bound with
  | some c =>
    rw [answer_container_bind_of_bound hbound]
    constructor
    · intro hanswer
      exact .inr ⟨c, moments, w, .bound hbound, hanswer⟩
    · rintro (⟨hunbound, -⟩ | ⟨d, later, u, hobtains, hanswer⟩)
      · rw [hbound] at hunbound
        cases hunbound
      · cases hobtains with
        | bound hd =>
          rw [hbound] at hd
          cases hd
          exact hanswer
        | waited hunbound _ _ =>
          rw [hbound] at hunbound
          cases hunbound
  | none =>
    rw [answer_container_bind_of_unbound hbound,
      answer_await_bind_eq_overflow_iff (by rintro ⟨⟩)]
    apply or_congr
    · exact (and_iff_right hbound).symm
    · constructor
      · rintro ⟨c, m, rest, rfl, hfound, hanswer⟩
        exact ⟨c, _, _, .waited hbound rfl hfound, hanswer⟩
      · rintro ⟨c, later, u, hobtains, hanswer⟩
        cases hobtains with
        | bound hc =>
          rw [hbound] at hc
          cases hc
        | @waited _ m rest r _ hrun hfound =>
          subst hrun
          exact ⟨c, m, rest, rfl, hfound, hanswer⟩

/-! ## The operations -/

theorem as_ne_overflow (b : Bean α) (type : TypeName) : b.as type ≠ .error .clockOverflow := by
  rw [Bean.as]
  split <;> rintro ⟨⟩

theorem steady_registerIn (c : Container α ω) (r : Registration α) :
    Steady (immediately (World.registerIn c r)) := by
  refine failsBy_immediately ?_
  rintro w e he rfl
  rw [World.registerIn] at he
  rcases hregister : c.register r w.around with ⟨e | _, around⟩
  · rw [hregister] at he
    cases he
  · rw [hregister] at he
    dsimp only at he
    rw [fst_remember] at he
    exact as_ne_overflow _ _ he

theorem steady_remember (type : TypeName) (b : Bean α) :
    Steady (immediately (World.remember (ω := ω) type b)) := by
  refine failsBy_immediately ?_
  rintro w e he rfl
  rw [fst_remember] at he
  exact as_ne_overflow _ _ he

/-- What such an operation does once it has its container does not overflow. -/
theorem exists_steady_of_throughContainer {call : Call α ω β} (h : ThroughContainer call) :
    ∃ k : Container α ω → Call α ω β, call = container >>= k ∧ ∀ c, Steady (k c) := by
  cases h with
  | consults h =>
    obtain ⟨k, hcall, hk⟩ := h.exists_bind
    refine ⟨k, hcall, fun c => (hk c).imp ?_⟩
    rintro e ⟨name, rfl⟩ ⟨⟩
  | register b => exact ⟨_, rfl, fun c => steady_registerIn c _⟩
  | registerNamed name b => exact ⟨_, rfl, fun c => steady_registerIn c _⟩

theorem answer_eq_overflow_iff_of_throughContainer {call : Call α ω β}
    (h : ThroughContainer call) :
    call.answer moments w = some (.error .clockOverflow) ↔ w.ContainerOverruns moments := by
  obtain ⟨k, rfl, hk⟩ := exists_steady_of_throughContainer h
  rw [answer_container_bind_eq_overflow_iff]
  refine or_iff_left ?_
  rintro ⟨c, later, u, -, hanswer⟩
  exact (hk c).answer_ne hanswer

theorem answer_immediately_bind (act : World α ω → Except RegistryError β × World α ω)
    (k : β → Call α ω γ) :
    (immediately act >>= k).answer moments w =
      match act w with
      | (.ok b, u) => (k b).answer moments u
      | (.error e, _) => some (.error e) := by
  show (Action.run (Action.act act _) moments w).1 = _
  rw [Action.run]
  rcases act w with ⟨e | b, u⟩ <;> rfl

/-- The fields are written before the container is waited for. -/
theorem answer_registerWith_eq_overflow_iff {σ : Type} {r : Record σ} {blank : σ}
    {content : σ → α} {fields : List (String × Value)} :
    (registerWith r blank content fields).answer moments w = some (.error .clockOverflow) ↔
      ∃ x u, World.fill r blank fields w = (.ok x, u) ∧ u.ContainerOverruns moments := by
  rw [registerWith, answer_immediately_bind]
  rcases hfill : World.fill r blank fields w with ⟨e | x, u⟩
  · refine iff_of_false (by rintro ⟨⟩) ?_
    rintro ⟨x, u, ⟨⟩, -⟩
  · refine (answer_eq_overflow_iff_of_throughContainer (.register _)).trans ?_
    constructor
    · intro h
      exact ⟨x, u, rfl, h⟩
    · rintro ⟨y, v, heq, h⟩
      cases heq
      exact h

/-- The wait for a bean, once the container is there. -/
theorem answer_bean_eq_overflow_iff {c : Container α ω} {type : TypeName} :
    (do
      let p := (← get).registry.settings.beanWait
      let b ← await p (.beanNotFound type p.window) (World.lookupIn c type)
      immediately (World.remember type b) : Call α ω α).answer moments w =
        some (.error .clockOverflow) ↔ w.BeanOverruns c type moments := by
  rw [answer_get_bind, answer_await_bind_eq_overflow_iff (by rintro ⟨⟩)]
  refine or_iff_left ?_
  rintro ⟨b, m, rest, -, -, hanswer⟩
  exact (steady_remember type b).answer_ne hanswer

theorem answer_of_of_kept {type : TypeName} {b : Bean α} (h : w.kept type = some b) :
    (of type).answer moments w = some (b.as type) := by
  rw [of, answer_get_bind, show w.registry.cache.lookup type = some b from h]
  rfl

theorem answer_of_of_free {type : TypeName} (h : w.kept type = none) :
    (of type).answer moments w =
      (container >>= fun c => do
        let p := (← get).registry.settings.beanWait
        let b ← await p (.beanNotFound type p.window) (World.lookupIn c type)
        immediately (World.remember type b) : Call α ω α).answer moments w := by
  rw [of, answer_get_bind, show w.registry.cache.lookup type = none from h]

/-- A bean that is not kept is waited for after the container. -/
theorem answer_of_eq_overflow_iff {type : TypeName} :
    (of type).answer moments w = some (.error .clockOverflow) ↔
      w.kept type = none ∧ (w.ContainerOverruns moments ∨
        ∃ c later u, w.Obtains moments c later u ∧ u.BeanOverruns c type later) := by
  cases hkept : w.kept type with
  | some b =>
    rw [answer_of_of_kept hkept]
    refine iff_of_false ?_ (by rintro ⟨⟨⟩, -⟩)
    intro hanswer
    exact as_ne_overflow b type (Option.some.inj hanswer)
  | none =>
    rw [answer_of_of_free hkept, answer_container_bind_eq_overflow_iff, and_iff_right rfl]
    simp only [answer_bean_eq_overflow_iff]

/-- A bean that the bound container holds at the first check is given, unless the clock cannot
tell the deadline of the wait for it. -/
theorem answer_of_held {type : TypeName} {c : Container α ω} {a : α} {around : ω}
    {m n : Moment (World α ω)} {rest : List (Moment (World α ω))} (hfree : w.kept type = none)
    (hbound : w.bound = some c) (hstill : (m.effect w).kept type = none)
    (hheld : c.lookup type (m.effect w).around = (some ⟨type, a⟩, around)) :
    (of type).answer (m :: n :: rest) w =
      if latestInstant < m.reading + w.registry.settings.beanWait.window.nanos
      then some (.error .clockOverflow) else some (.ok a) := by
  have hfound : (lookupIn c type (m.effect w)).1 = some ⟨type, a⟩ := by
    rw [lookupIn, hheld]
  have hkept : (lookupIn c type (m.effect w)).2.kept type = none := by
    rw [lookupIn, hheld]
    exact hstill
  have hremember : (World.remember type ⟨type, a⟩ (lookupIn c type (m.effect w)).2).1 = .ok a := by
    rw [fst_remember, hkept, Option.getD_none]
    exact as_of_type rfl
  have hgiven : (immediately (World.remember type ⟨type, a⟩)).answer (n :: rest)
      (lookupIn c type (m.effect w)).2 = some (.ok a) := congrArg some hremember
  rw [answer_of_of_free hfree, answer_container_bind_of_bound hbound, answer_get_bind]
  dsimp only
  rw [answer_await_bind_of_found hfound, hgiven]

/-! ## Room on the clock -/

/-- With room on the clock no operation overflows. -/
theorem answer_ne_overflow_of_room {call : Call α ω β} (h : w.HasRoom moments)
    (hcall : Operation call) : call.answer moments w ≠ some (.error .clockOverflow) := by
  intro hanswer
  cases hcall with
  | direct hdirect =>
    exact h.not_containerOverruns ((answer_eq_overflow_iff_of_throughContainer hdirect).mp hanswer)
  | of type =>
    obtain ⟨-, hoverruns | ⟨c, later, u, hobtains, hoverruns⟩⟩ :=
      answer_of_eq_overflow_iff.mp hanswer
    · exact h.not_containerOverruns hoverruns
    · exact (h.obtains hobtains).not_beanOverruns c type hoverruns
  | registerWith r blank content fields =>
    obtain ⟨x, u, hfill, hoverruns⟩ := answer_registerWith_eq_overflow_iff.mp hanswer
    obtain ⟨i, hi⟩ := exists_snd_fill r blank fields w
    have hsettings : u.registry.settings = w.registry.settings := by
      rw [hfill] at hi
      exact congrArg (·.registry.settings) hi
    exact (h.of_settings hsettings fun _ hm => hm).not_containerOverruns hoverruns

/-- An interval of up to `2 ^ 64` milliseconds is a duration. -/
theorem ofMillis_le_longest (n : UInt64) :
    (Duration.ofMillis n.toNat).nanos ≤ Duration.longest.nanos := by
  have hn := n.toNat_lt
  show n.toNat * 1000000 ≤ 2 ^ 64 * 1000000000 - 1
  omega

/-- **The end of the clock.** Intervals and windows are durations whatever the settings, but
a wait overflows just when the clock cannot tell its deadline, or an instant to be woken at
after a check. An operation overflows just when a wait that it needs does: for the container,
unless one is bound; for a bean that is not kept, then in the container. So a bean in the
bound container is given only if the clock can tell the deadline of the wait for it. Where
the clock has room for the waits, no operation overflows. -/
theorem clock_overflow_iff (w : World α ω) (moments : List (Moment (World α ω))) :
    (∀ s : Settings, ∀ p ∈ [s.contextWait, s.beanWait],
      p.interval.nanos ≤ Duration.longest.nanos ∧ p.window.nanos ≤ Duration.longest.nanos) ∧
    (∀ {β : Type} (call : Call α ω β), ThroughContainer call →
      (call.answer moments w = some (.error .clockOverflow) ↔ w.ContainerOverruns moments)) ∧
    (∀ {σ : Type} (r : Record σ) (blank : σ) (content : σ → α) (fields : List (String × Value)),
      (registerWith r blank content fields).answer moments w = some (.error .clockOverflow) ↔
        ∃ x u, World.fill r blank fields w = (.ok x, u) ∧ u.ContainerOverruns moments) ∧
    (∀ type, (of type).answer moments w = some (.error .clockOverflow) ↔
      w.kept type = none ∧ (w.ContainerOverruns moments ∨
        ∃ c later u, w.Obtains moments c later u ∧ u.BeanOverruns c type later)) ∧
    (∀ type c a around m n rest, moments = m :: n :: rest → w.kept type = none →
      w.bound = some c → (m.effect w).kept type = none →
      c.lookup type (m.effect w).around = (some ⟨type, a⟩, around) →
      (of type).answer moments w =
        if latestInstant < m.reading + w.registry.settings.beanWait.window.nanos
        then some (.error .clockOverflow) else some (.ok a)) ∧
    (w.HasRoom moments → ∀ {β : Type} (call : Call α ω β), Operation call →
      call.answer moments w ≠ some (.error .clockOverflow)) := by
  refine ⟨?_, ?_, ?_, ?_, ?_, ?_⟩
  · intro s p hp
    refine ⟨?_, Nat.min_le_right _ _⟩
    rcases List.mem_pair.mp hp with rfl | rfl
    · exact ofMillis_le_longest s.pollMillis
    · exact ofMillis_le_longest s.pollMillis
  · intro β call hcall
    exact answer_eq_overflow_iff_of_throughContainer hcall
  · intro σ r blank content fields
    exact answer_registerWith_eq_overflow_iff
  · intro type
    exact answer_of_eq_overflow_iff
  · rintro type c a around m n rest rfl hfree hbound hstill hheld
    exact answer_of_held hfree hbound hstill hheld
  · intro hroom β call hcall
    exact answer_ne_overflow_of_room hroom hcall

/-- The lamp is in the bound context, but a wait of many years for it would end after the
clock does. -/
theorem held_bean_out_of_reach :
    let lamp : Bean Nat := ⟨⟨"home::Lamp"⟩, 1⟩
    let house := Context.registerAll { environment := .empty, policy := .replace } [.of lamp]
    let settings : Settings := ⟨18446744073709551615, 500, 500⟩
    let w := (World.bind Context.container ⟨{ settings }, house⟩).2
    house.lookup lamp.type = some lamp ∧
      (of lamp.type).answer [⟨1000000000, id⟩] w = some (.error .clockOverflow) :=
  ⟨by decide, rfl⟩

end Call

end Wiring
