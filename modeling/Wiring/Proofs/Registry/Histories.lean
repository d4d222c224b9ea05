import Wiring.Proofs.Registry.Sessions

/-!
# What histories are like

Every entry of a history is a lawful slice, each goes on where the one before
it has left the registry, and a call is recorded from its first slice on. This
holds in a new session and is kept by every event.
-/

namespace Wiring

open World

variable {α ω : Type}

/-! ## Slices of requests -/

/-- The instance in a reply. -/
def given? (o : Option (Reply α)) : Option α :=
  o.bind fun r => r.toOption.join

/-- The request registers a bean of the type. -/
def Request.Registers (type : TypeName) : Request α ω → Prop
  | .register b | .registerNamed _ b => b.type = type
  | .registerWith r _ _ _ => r.type = type
  | _ => False

/-- What a slice of a request comes to. -/
inductive Request.Post (start : World α (Noted α ω)) (o : Option (Reply α))
    (u : World α (Noted α ω)) : Request α ω → Prop
  | bound {c : Container α ω} (unbound : start.bound = none) (reply : o = some (.ok none))
    (bound : u.bound = some c.noted) (cache : u.registry.cache = start.registry.cache)
    (around : u.around = start.around) : Post start o u (.bind c)
  | refused {c : Container α ω} (reply : o = some (.error .alreadyBound))
    (quiet : Quiet start u) : Post start o u (.bind c)
  | wanted {q : Request α ω} {type : TypeName} (wants : q.Wants type)
    (found : Found type start (given? o) u) : Post start o u q
  | added {b : Bean α} (reply : given? o = (((start.kept b.type).getD b).as b.type).toOption)
    (keeps : Keeps b.type b start u) (stays : u.bound = start.bound)
    (around : u.around = start.around) : Post start o u (.add b)
  | registered {q : Request α ω} {r : Registration α} (registers : q.Registers r.bean.type)
    (registered : Registered r start (given? o) u) : Post start o u q
  | cleared (reply : o = some (.ok none)) (cache : u.registry.cache = [])
    (stays : u.bound = start.bound) (around : u.around = start.around) :
    Post start o u .clearCache

theorem given?_map (o : Option (Except RegistryError α)) :
    given? (o.map fun r => r.map some) = instance? o := by
  rcases o with _ | e | a <;> rfl

/-- A call that is answered as a request ends its slices as the call does. -/
theorem Request.works_reply {call : Call α (Noted α ω) α} {start s : World α (Noted α ω)}
    {post : World α (Noted α ω) → Option (Reply α) → World α (Noted α ω) → Prop}
    (h : Call.Works (fun start o t => post start (o.map fun r => r.map some) t) call start s) :
    (Request.reply call).Works Stays post start s := by
  refine Action.Works.bind (Action.Works.imp h ?_)
  intro start o t ho
  cases o with
  | none => exact ho
  | some r => exact ho

/-- **Slices of requests.** Every slice of a request comes to what the request is for. -/
theorem Request.works (q : Request α ω) (w : World α (Noted α ω)) :
    q.action.Works Stays (fun start o u => q.Post start o u) w w := by
  cases q with
  | bind c =>
    show Post w (some ((w.bind c.noted).1.map fun _ => none)) (w.bind c.noted).2 (.bind c)
    cases hbound : w.bound with
    | none =>
      rw [bind_of_unbound hbound]
      exact .bound hbound rfl rfl rfl rfl
    | some d =>
      rw [bind_of_bound hbound]
      exact .refused rfl (Quiet.refl w)
  | of type =>
    apply works_reply
    refine (Call.works_of type w).imp ?_
    intro start o t h
    rw [← given?_map] at h
    exact .wanted (.inl rfl) h
  | get type => exact .wanted (.inr rfl) (found_get type w)
  | add b =>
    refine .added ?_ (keeps_remember b.type b w) (bound_remember b.type b w) rfl
    rw [← fst_remember]
    exact given?_map (some (w.remember b.type b).1)
  | register b =>
    apply works_reply
    refine (Call.works_registerNamed b.type.beanName b (Quiet.refl w)).imp ?_
    intro start o t h
    rw [← given?_map] at h
    exact .registered (r := ⟨b.type.beanName, b⟩) rfl h
  | registerNamed name b =>
    apply works_reply
    refine (Call.works_registerNamed name b (Quiet.refl w)).imp ?_
    intro start o t h
    rw [← given?_map] at h
    exact .registered (r := ⟨name, b⟩) rfl h
  | registerWith r blank content fields =>
    apply works_reply
    refine (Call.works_registerWith r blank content fields w).imp ?_
    rintro start o t ⟨x, h⟩
    rw [← given?_map] at h
    exact .registered (r := .of ⟨r.type, content x⟩) rfl h
  | clearCache => exact .cleared rfl rfl rfl rfl

/-- A wish for a bean that is kept is answered at once. -/
theorem Request.advance_of_kept {q : Request α ω} {type : TypeName} {b : Bean α}
    {w : World α (Noted α ω)} (hq : q.Wants type) (h : w.kept type = some b) (now : Nat) :
    ∃ reply, q.action.advance now w = (.done reply, w) ∧
      ∀ a, b.as type = .ok a → reply = .ok (some a) := by
  rcases hq with rfl | rfl
  · refine ⟨_, Action.advance_bind_of_done (Call.advance_of_kept h now), ?_⟩
    intro a ha
    rw [ha]
    rfl
  · refine ⟨.ok (b.as type).toOption, ?_, ?_⟩
    · show (Progress.done (Except.ok (w.get type).1), (w.get type).2) = _
      rw [get_of_kept h]
    · intro a ha
      rw [ha]
      rfl

namespace Request.Post

variable {start u : World α (Noted α ω)} {o : Option (Reply α)} {q : Request α ω}

theorem bound_cases (h : q.Post start o u) :
    (∃ c, q = .bind c ∧ o = some (.ok none) ∧ start.bound = none ∧ u.bound = some c.noted) ∨
    (∀ c, ¬ (q = .bind c ∧ o = some (.ok none))) ∧ u.bound = start.bound := by
  cases h with
  | bound unbound reply bound cache around => exact .inl ⟨_, rfl, reply, unbound, bound⟩
  | refused reply quiet =>
    refine .inr ⟨?_, quiet.bound⟩
    rintro c ⟨-, hreply⟩
    rw [reply] at hreply
    cases hreply
  | wanted wants found =>
    refine .inr ⟨?_, found.stays⟩
    rintro c ⟨rfl, -⟩
    rcases wants with h | h <;> cases h
  | added reply keeps stays around =>
    refine .inr ⟨?_, stays⟩
    rintro c ⟨⟨⟩, -⟩
  | registered registers registered =>
    refine .inr ⟨?_, registered.stays⟩
    rintro c ⟨rfl, -⟩
    exact registers
  | cleared reply cache stays around =>
    refine .inr ⟨?_, stays⟩
    rintro c ⟨⟨⟩, -⟩

theorem stays (h : q.Post start o u) : Stays start u := by
  rcases h.bound_cases with ⟨c, -, -, hunbound, -⟩ | ⟨-, hbound⟩
  · intro d hd
    rw [hunbound] at hd
    cases hd
  · exact Stays.of_eq hbound

end Request.Post

/-! ## Valid sessions -/

/-- Every bound container notes the accesses to it. -/
def World.Noting (w : World α (Noted α ω)) : Prop :=
  ∀ c, w.bound = some c → ∃ d : Container α ω, c = d.noted

/-- The slice begins with no access noted and does what its request is for. -/
structure Slice.Lawful (s : Slice α ω) : Prop where
  post : s.request.Post s.before s.reply s.after
  silent : s.before.around.2 = []
  noting : s.before.Noting

/-- A wish for a bean that is kept is answered in the slice, with that bean if it is of the
type, and no container is turned to. -/
def Slice.Prompt (s : Slice α ω) : Prop :=
  ∀ type b, s.request.Wants type → s.before.kept type = some b → s.accesses = [] ∧
    ∃ reply, s.reply = some reply ∧ ∀ a, b.as type = .ok a → reply = .ok (some a)

/-- The history has the first slice of a call, and no slice of it has come to an end. -/
def Sleeps (history : List (Slice α ω)) (since : Nat) (q : Request α ω) : Prop :=
  ∃ first, history[since]? = some first ∧ first.request = q ∧ first.Prompt ∧ first.reply = none

/-- The registry that a history leaves before a position, having begun with a registry. -/
def left (r : Registry α (Noted α ω)) (history : List (Slice α ω)) : Nat → Registry α (Noted α ω)
  | 0 => r
  | k + 1 => (history[k]?.map (·.after.registry)).getD r

/-- The session began with a registry and has a true history. -/
structure Session.Valid (r : Registry α (Noted α ω)) (s : Session α ω) : Prop where
  lawful : ∀ (t : Slice α ω), t ∈ s.history → t.Lawful
  linked : ∀ k (t : Slice α ω), s.history[k]? = some t → t.before.registry = left r s.history k
  begun : ∀ k (t : Slice α ω), s.history[k]? = some t →
    (t.since = k ∧ t.Prompt) ∨ (t.since < k ∧ Sleeps s.history t.since t.request)
  current : s.world.registry = left r s.history s.history.length
  noting : s.world.Noting
  pending : ∀ (p : Pending α ω), p ∈ s.pending → Sleeps s.history p.since p.request ∧
    ∀ u, Stays s.world u → p.rest.Works Stays (fun start o v => p.request.Post start o v) u u

section Append

variable {r : Registry α (Noted α ω)} {history : List (Slice α ω)} {s : Session α ω} {t : Slice α ω}

theorem getElem?_concat_cases {k : Nat} {u : Slice α ω} (h : (history ++ [t])[k]? = some u) :
    history[k]? = some u ∨ (k = history.length ∧ u = t) := by
  rcases Nat.lt_trichotomy k history.length with hk | rfl | hk
  · rw [List.getElem?_append_left hk] at h
    exact .inl h
  · rw [List.getElem?_concat_length] at h
    exact .inr ⟨rfl, (Option.some.inj h).symm⟩
  · rw [List.getElem?_eq_none (by rw [List.length_append]; exact hk)] at h
    cases h

theorem getElem?_concat_of_some {k : Nat} {u : Slice α ω} (h : history[k]? = some u) :
    (history ++ [t])[k]? = some u := by
  obtain ⟨hk, -⟩ := List.getElem?_eq_some_iff.mp h
  rw [List.getElem?_append_left hk, h]

theorem Sleeps.concat {since : Nat} {q : Request α ω} (h : Sleeps history since q) :
    Sleeps (history ++ [t]) since q := by
  obtain ⟨first, hfirst, h⟩ := h
  exact ⟨first, getElem?_concat_of_some hfirst, h⟩

theorem left_concat {k : Nat} (hk : k ≤ history.length) :
    left r (history ++ [t]) k = left r history k := by
  cases k with
  | zero => rfl
  | succ k => rw [left, left, List.getElem?_append_left hk]

theorem left_concat_length :
    left r (history ++ [t]) (history ++ [t]).length = t.after.registry := by
  rw [List.length_append, List.length_singleton, left, List.getElem?_concat_length]
  rfl

/-- An event that is a slice keeps the session valid. -/
theorem Session.Valid.concat (h : s.Valid r) {pending : List (Pending α ω)}
    (hbefore : t.before = s.world.fresh) (hpost : t.request.Post t.before t.reply t.after)
    (hbegun : (t.since = s.history.length ∧ t.Prompt) ∨
      (t.since < s.history.length ∧ Sleeps s.history t.since t.request))
    (hpending : ∀ p ∈ pending, p ∈ s.pending ∨ (p.since = t.since ∧ p.request = t.request ∧
      t.reply = none ∧ ∀ u, Stays t.after u →
        p.rest.Works Stays (fun start o v => p.request.Post start o v) u u)) :
    Session.Valid r ⟨t.after, pending, s.history ++ [t]⟩ := by
  have hlawful : t.Lawful := by
    refine ⟨hpost, ?_, ?_⟩
    · rw [hbefore]
      rfl
    · rw [hbefore]
      exact h.noting
  have hstays : Stays s.world t.after := by
    have hslice := hpost.stays
    rw [hbefore] at hslice
    exact hslice
  constructor
  · intro u hu
    rcases List.mem_append.mp hu with hu | hu
    · exact h.lawful u hu
    · rw [List.mem_singleton.mp hu]
      exact hlawful
  · intro k u hu
    rcases getElem?_concat_cases hu with hu | ⟨rfl, rfl⟩
    · obtain ⟨hk, -⟩ := List.getElem?_eq_some_iff.mp hu
      rw [left_concat (Nat.le_of_lt hk)]
      exact h.linked k u hu
    · rw [left_concat (Nat.le_refl _), hbefore]
      exact h.current
  · intro k u hu
    rcases getElem?_concat_cases hu with hu | ⟨rfl, rfl⟩
    · rcases h.begun k u hu with hfirst | ⟨hlt, hsleeps⟩
      · exact .inl hfirst
      · exact .inr ⟨hlt, hsleeps.concat⟩
    · rcases hbegun with hfirst | ⟨hlt, hsleeps⟩
      · exact .inl hfirst
      · exact .inr ⟨hlt, hsleeps.concat⟩
  · exact left_concat_length.symm
  · rcases hpost.bound_cases with ⟨c, -, -, -, hbound⟩ | ⟨-, hbound⟩
    · intro d hd
      rw [hbound] at hd
      exact ⟨c, (Option.some.inj hd).symm⟩
    · intro d hd
      rw [hbound] at hd
      exact hlawful.noting d hd
  · intro p hp
    rcases hpending p hp with hp | ⟨hsince, hrequest, hreply, hworks⟩
    · obtain ⟨hsleeps, hworks⟩ := h.pending p hp
      exact ⟨hsleeps.concat, fun u hu => hworks u (hstays.trans hu)⟩
    · refine ⟨?_, hworks⟩
      rw [hsince, hrequest]
      rcases hbegun with ⟨hlength, hprompt⟩ | ⟨-, hsleeps⟩
      · rw [hlength]
        exact ⟨t, List.getElem?_concat_length, rfl, hprompt, hreply⟩
      · exact hsleeps.concat

end Append

namespace Session

variable {r : Registry α (Noted α ω)} {s : Session α ω}

/-- A slice of a call that works, from its start or from a wake, keeps the session valid. -/
theorem Valid.work (h : s.Valid r) {q : Request α ω} {since : Nat}
    {a : Action (World α (Noted α ω)) (Reply α)} {pending : List (Pending α ω)} (now : Nat)
    (hworks : a.Works Stays (fun start o v => q.Post start o v) s.world.fresh s.world.fresh)
    (hpending : ∀ p ∈ pending, p ∈ s.pending)
    (hbegun : (since = s.history.length ∧ a = q.action) ∨
      (since < s.history.length ∧ Sleeps s.history since q)) :
    (s.work q since a pending now).Valid r := by
  have htrans : ∀ w u v : World α (Noted α ω), Stays w u → Stays u v → Stays w v :=
    fun _ _ _ => Stays.trans
  have hslice := hworks.advance htrans now
  have hbegun' : ∀ t : Slice α ω, t.request = q → t.since = since →
      (a = q.action → t.Prompt) → (t.since = s.history.length ∧ t.Prompt) ∨
        (t.since < s.history.length ∧ Sleeps s.history t.since t.request) := by
    intro t hq hsince hprompt
    rw [hq, hsince]
    rcases hbegun with ⟨hlength, ha⟩ | hlater
    · exact .inl ⟨hlength, hprompt ha⟩
    · exact .inr hlater
  rw [Session.work]
  split
  · rename_i reply after hadvance
    rw [hadvance] at hslice
    let t : Slice α ω := ⟨q, since, s.world.fresh, some reply, after⟩
    refine h.concat rfl hslice (hbegun' t rfl rfl ?_) fun p hp => .inl (hpending p hp)
    rintro rfl type b hwants hkept
    obtain ⟨reply', hreply, hgives⟩ := Request.advance_of_kept hwants hkept now
    rw [hreply] at hadvance
    obtain ⟨hdone, hafter⟩ := Prod.mk.inj hadvance
    refine ⟨?_, reply, rfl, ?_⟩
    · show after.around.2 = []
      rw [← hafter]
      rfl
    · cases hdone
      exact hgives
  · rename_i rest instant after hadvance
    rw [hadvance] at hslice
    obtain ⟨hpost, hrest⟩ := hslice
    let t : Slice α ω := ⟨q, since, s.world.fresh, none, after⟩
    refine h.concat rfl hpost (hbegun' t rfl rfl ?_) ?_
    · -- A wish for a kept bean does not fall asleep in its first slice.
      rintro rfl type b hwants hkept
      obtain ⟨reply, hreply, -⟩ := Request.advance_of_kept hwants hkept now
      rw [hreply] at hadvance
      cases hadvance
    · intro p hp
      rcases List.mem_append.mp hp with hp | hp
      · exact .inl (hpending p hp)
      · rw [List.mem_singleton.mp hp]
        exact .inr ⟨rfl, rfl, rfl, hrest⟩

/-- **One event** keeps a session valid. -/
theorem Valid.step (h : s.Valid r) (e : Event α ω) : (s.step e).Valid r := by
  cases e with
  | ask q now => exact h.work now (q.works _) (fun _ hp => hp) (.inl ⟨rfl, rfl⟩)
  | wake position now =>
    rw [Session.step]
    cases hp : s.pending[position]? with
    | none => exact h
    | some p =>
      obtain ⟨hsleeps, hworks⟩ := h.pending p (List.mem_of_getElem? hp)
      have hlt : p.since < s.history.length := by
        obtain ⟨first, hfirst, -⟩ := hsleeps
        exact (List.getElem?_eq_some_iff.mp hfirst).1
      exact h.work now (hworks _ (Stays.refl _)) (fun _ hq => List.mem_of_mem_eraseIdx hq)
        (.inr ⟨hlt, hsleeps⟩)
  | outside f => exact ⟨h.lawful, h.linked, h.begun, h.current, h.noting, h.pending⟩

theorem valid_start (settings : Settings) (introspector : Introspector) (o : ω) :
    (start (α := α) settings introspector o).Valid { settings, introspector } := by
  refine ⟨?_, ?_, ?_, rfl, ?_, ?_⟩
  · rintro t ⟨⟩
  · rintro k t ⟨⟩
  · rintro k t ⟨⟩
  · rintro c ⟨⟩
  · rintro p ⟨⟩

/-- **Runs.** After any course of events a new session is valid. -/
theorem Valid.run (h : s.Valid r) (events : List (Event α ω)) : (s.run events).Valid r := by
  induction events generalizing s with
  | nil => exact h
  | cons e rest ih => exact ih (h.step e)

end Session

end Wiring
