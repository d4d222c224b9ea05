import Wiring.Proofs.Registry.Answers

/-!
# Consulting the container

Some operations only consult the bound container: they give it away, read a property of it
or set a scan of it up. They leave the registry alone, and in the container they bring about
at most what the reading of a property does.
-/

namespace Wiring

open World

variable {α ω β : Type}

/-- The operations that only consult the container. -/
inductive Call.Consults : {β : Type} → Call α ω β → Prop
  | container : Consults container
  | property (name : String) : Consults (property name)
  | propertyTextOr (name default : String) : Consults (propertyTextOr name default)
  | propertyAs (name : String) (shape : Config.Shape) : Consults (propertyAs name shape)
  | scan (scope : String) : Consults (scan scope)
  | scanNear (type : TypeName) : Consults (scanNear type)

/-- What a slice of such an operation does to the world. -/
inductive World.Consulted (start u : World α ω) : Prop
  | quiet (quiet : Quiet start u)
  | read {c : Container α ω} (name : String) (bound : start.bound = some c)
    (stays : u.bound = start.bound) (cache : u.registry.cache = start.registry.cache)
    (around : u.around = (c.property name start.around).2)

theorem World.Consulted.stays {start u : World α ω} (h : Consulted start u) :
    u.bound = start.bound := by
  cases h with
  | quiet quiet => exact quiet.bound
  | read _ _ stays _ _ => exact stays

/-- What makes such an operation fail. -/
inductive RegistryError.Consulting : RegistryError → Prop
  | notReady (waited : Duration) : Consulting (.containerNotReady waited)
  | overflow : Consulting .clockOverflow
  | shape (name : String) : Consulting (.config (.propertyShape name))

namespace Call

variable {call : Call α ω β} {start w : World α ω}

theorem works_property (name : String) (start : World α ω) :
    Works (fun start _ t => Consulted start t) (property name) start start := by
  apply Works.bind
  refine (works_container (Quiet.refl start)).imp ?_
  rintro start (_ | _ | c) t ⟨hquiet, hcontainer⟩
  · exact .quiet hquiet
  · exact .quiet hquiet
  · refine works_immediately (.read name (hcontainer c rfl) hquiet.bound hquiet.cache ?_)
    rw [← hquiet.around]

theorem works_container_of_consulted (start : World α ω) :
    Works (fun start _ t => Consulted start t) container start start :=
  (works_container (Quiet.refl start)).imp fun _ _ _ h => .quiet h.1

/-- **Slices** of such operations. -/
theorem Consults.works (h : Consults call) (start : World α ω) :
    Works (fun start _ t => Consulted start t) call start start := by
  cases h with
  | container => exact works_container_of_consulted start
  | property name => exact works_property name start
  | propertyTextOr name default =>
    apply Works.bind
    refine (works_property name start).imp ?_
    rintro start (_ | _ | v) t ht <;> exact ht
  | propertyAs name shape =>
    apply Works.bind
    refine (works_property name start).imp ?_
    rintro start (_ | _ | _ | v) t ht
    · exact ht
    · exact ht
    · exact ht
    · dsimp only
      cases shape.read v <;> exact ht
  | scan scope | scanNear type =>
    apply Works.bind
    refine (works_container_of_consulted start).imp ?_
    rintro start (_ | _ | c) t ht <;> exact ht

theorem failsBy_read {P : RegistryError → Prop} (c : Container α ω) (name : String) :
    FailsBy P (immediately fun w : World α ω =>
      match c.property name w.around with
      | (v, around) => (.ok v, { w with around })) := by
  rintro w e ⟨⟩

/-- Once such an operation has its container, only a shape can fail it. -/
theorem Consults.exists_bind (h : Consults call) :
    ∃ k : Container α ω → Call α ω β, call = Call.container >>= k ∧
      ∀ c, FailsBy (fun e => ∃ name, e = .config (.propertyShape name)) (k c) := by
  cases h with
  | container => exact ⟨pure, (bind_pure _).symm, fun c => failsBy_pure c⟩
  | property name => exact ⟨_, rfl, fun c => failsBy_read c name⟩
  | propertyTextOr name default =>
    exact ⟨_, bind_assoc _ _ _, fun c => (failsBy_read c name).bind fun v => failsBy_pure _⟩
  | propertyAs name shape =>
    refine ⟨_, bind_assoc _ _ _, fun c => (failsBy_read c name).bind fun v => ?_⟩
    cases v with
    | none => exact failsBy_pure none
    | some v =>
      dsimp only
      cases shape.read v with
      | none =>
        rintro w e ⟨⟩
        exact ⟨name, rfl⟩
      | some x => exact failsBy_pure (some x)
  | scan scope | scanNear type => exact ⟨_, rfl, fun c => failsBy_pure _⟩

/-- **Answers** of such operations: they fail for the lack of a container or of a shape, or
by the clock. -/
theorem Consults.failsBy (h : Consults call) : FailsBy RegistryError.Consulting call := by
  obtain ⟨k, rfl, hk⟩ := h.exists_bind
  refine (failsBy_container .notReady .overflow).bind fun c => (hk c).imp ?_
  rintro e ⟨name, rfl⟩
  exact .shape name

end Call

end Wiring
