import Wiring.Proofs.Container.Entries
import Wiring.Proofs.Record.Reach

/-!
# Overlays

Copies, bulk writes and clones end in the same way: what some source has under the
names of a record type is laid over an instance, each value as its field stores it.
The instance and the source determine the outcome. An overlay over an overlay is
that of both sources together, and to lay the same thing over once more changes
nothing.
-/

namespace Wiring

/-- The fields of a lineage can store what a source has under their names. -/
def Lineage.Takes (l : Lineage) (source : String → Option Value) : Prop :=
  ∀ name f v, l.declared? name = some f → source name = some v → ∃ w, f.type.store v = .ok w

/-- No declaration of the lineage hides another one. -/
def Lineage.Unshadowed (l : Lineage) : Prop :=
  (l.describe.map (·.name)).Nodup

instance (l : Lineage) : Decidable l.Unshadowed :=
  inferInstanceAs (Decidable (l.describe.map (·.name)).Nodup)

/-- The second instance is the first one with what a source has laid over it: each
field holds the conversion of the source's value for its name, or what it held when
there is none, and hidden slots are as they were. -/
structure Instance.Overlaid (x : Instance) (l : Lineage) (source : String → Option Value)
    (y : Instance) : Prop where
  fits : y.Fits l
  stored : ∀ {name f v}, l.declared? name = some f → source name = some v →
    ∃ w, f.type.store v = .ok w ∧ y.get name = some w
  kept : ∀ {name}, source name = none → y.get name = x.get name
  hidden : y.hidden = x.hidden

/-- What takes a source takes any part of it. -/
theorem Lineage.Takes.mono {l : Lineage} {source part : String → Option Value}
    (h : l.Takes source) (hpart : ∀ name v, part name = some v → source name = some v) :
    l.Takes part :=
  fun name f v hf hv => h name f v hf (hpart name v hv)

namespace Instance.Fits

variable {x y : Instance} {l : Lineage} {name : String}

/-- An instance of a type has values that every other one of the type can hold. -/
theorem takes (hx : x.Fits l) : l.Takes fun name => x.get name := by
  intro name f v hf hv
  exact ⟨v, hx.store_get hf hv⟩

/-! ## Nothing hidden -/

theorem names_slots (hx : x.Fits l) :
    x.slots.map (·.decl.name) = l.describe.map (·.name) :=
  calc x.slots.map (·.decl.name) = (x.slots.map (·.decl)).map (·.name) := List.map_map.symm
    _ = (l.members.flatMap (·.fields)).map (·.name) := by rw [decls_slots, hx.shape]
    _ = l.describe.map (·.name) := by
      rw [Lineage.describe, List.map_flatMap, List.map_flatMap]
      simp only [Member.describe, List.map_map]
      rfl

theorem hidden_eq_nil (hx : x.Fits l) (h : l.Unshadowed) : x.hidden = [] := by
  have hnodup : (x.slots.map (·.decl.name)).Nodup := by
    rw [hx.names_slots]
    exact h
  exact hiddenSlots_eq_nil hnodup fun _ _ => List.not_mem_nil

/-- Where nothing is hidden the names are all there is. -/
theorem ext_of_unshadowed (hx : x.Fits l) (hy : y.Fits l) (h : l.Unshadowed)
    (hget : ∀ name, x.get name = y.get name) : x = y :=
  hx.ext hy hget (by rw [hx.hidden_eq_nil h, hy.hidden_eq_nil h])

end Instance.Fits

namespace Instance.Overlaid

variable {x y z : Instance} {l : Lineage} {source lower upper : String → Option Value}

theorem takes (h : x.Overlaid l source y) : l.Takes source := by
  intro name f v hf hv
  obtain ⟨w, hw, -⟩ := h.stored hf hv
  exact ⟨w, hw⟩

/-- Laying nothing over an instance. -/
theorem refl (hx : x.Fits l) : x.Overlaid l (fun _ => none) x where
  fits := hx
  stored _ h := nomatch h
  kept _ := rfl
  hidden := rfl

/-- A single write is an overlay. -/
theorem of_written {name : String} {f : FieldDecl} {v w : Value} (hy : y.Fits l)
    (hf : l.declared? name = some f) (hw : f.type.store v = .ok w) (h : x.Written name w y) :
    x.Overlaid l (fun other => if other = name then some v else none) y where
  fits := hy
  stored {other g u} hg hu := by
    by_cases heq : other = name
    · subst heq
      rw [hf] at hg
      rw [if_pos rfl] at hu
      cases hg
      cases hu
      exact ⟨w, hw, h.value⟩
    · rw [if_neg heq] at hu
      cases hu
  kept {other} hnone := by
    apply h.others
    intro heq
    rw [if_pos heq] at hnone
    cases hnone
  hidden := h.hidden

/-- Only what a source has under declared names counts. -/
theorem congr (hx : x.Fits l) (h : x.Overlaid l lower y)
    (heq : ∀ name f, l.declared? name = some f → lower name = upper name) :
    x.Overlaid l upper y where
  fits := h.fits
  stored hf hv := h.stored hf ((heq _ _ hf).trans hv)
  kept {name} hnone := by
    cases hf : l.declared? name with
    | none => rw [h.fits.get_undeclared hf, hx.get_undeclared hf]
    | some f => exact h.kept ((heq name f hf).trans hnone)
  hidden := h.hidden

/-- **An overlay leaves one instance only.** -/
theorem unique (hy : x.Overlaid l source y) (hz : x.Overlaid l source z) : y = z := by
  apply hy.fits.ext hz.fits
  · intro name
    cases hv : source name with
    | none => rw [hy.kept hv, hz.kept hv]
    | some v =>
      cases hf : l.declared? name with
      | none => rw [hy.fits.get_undeclared hf, hz.fits.get_undeclared hf]
      | some f =>
        obtain ⟨w, hw, hget⟩ := hy.stored hf hv
        obtain ⟨w', hw', hget'⟩ := hz.stored hf hv
        rw [hw] at hw'
        cases hw'
        rw [hget, hget']
  · rw [hy.hidden, hz.hidden]

/-- **Overlays compose.** Where the later source has nothing, the earlier one counts. -/
theorem trans (hxy : x.Overlaid l lower y) (hyz : y.Overlaid l upper z) :
    x.Overlaid l (fun name => (upper name).or (lower name)) z where
  fits := hyz.fits
  stored {name f v} hf hv := by
    rcases Option.or_eq_some_iff.mp hv with hupper | ⟨hnone, hlower⟩
    · exact hyz.stored hf hupper
    · obtain ⟨w, hw, hget⟩ := hxy.stored hf hlower
      exact ⟨w, hw, (hyz.kept hnone).trans hget⟩
  kept {name} hnone := by
    obtain ⟨hupper, hlower⟩ := Option.or_eq_none_iff.mp hnone
    rw [hyz.kept hupper, hxy.kept hlower]
  hidden := hyz.hidden.trans hxy.hidden

/-- **Once is enough.** Part of a source may be laid over again: it is there already. -/
theorem again (h : x.Overlaid l source y)
    (hpart : ∀ name v, upper name = some v → source name = some v) : y.Overlaid l upper y where
  fits := h.fits
  stored hf hv := h.stored hf (hpart _ _ hv)
  kept _ := rfl
  hidden := rfl

/-- The field of a name holds the conversion of what the source has. -/
theorem get_eq_of_store (h : x.Overlaid l source y) {name : String} {f : FieldDecl} {v w : Value}
    (hf : l.declared? name = some f) (hv : source name = some v) (hw : f.type.store v = .ok w) :
    y.get name = some w := by
  obtain ⟨u, hu, hget⟩ := h.stored hf hv
  rw [hw] at hu
  cases hu
  exact hget

/-- Values of another instance of the type are seen as they are. -/
theorem get_eq (h : x.Overlaid l source y) (hz : z.Fits l) {name : String} {v : Value}
    (hv : source name = some v) (hget : z.get name = some v) : y.get name = some v := by
  obtain ⟨f, hf⟩ := hz.exists_declared hget
  exact h.get_eq_of_store hf hv (hz.store_get hf hget)

/-- Where a source has nothing, another instance of the type that lies below it is seen. -/
theorem get_eq_of_below (h : x.Overlaid l (fun name => (upper name).or (z.get name)) y)
    (hz : z.Fits l) {name : String} (hnone : upper name = none) : y.get name = z.get name := by
  cases hf : l.declared? name with
  | none => rw [h.fits.get_undeclared hf, hz.get_undeclared hf]
  | some f =>
    obtain ⟨v, hv⟩ := hz.exists_get hf
    rw [hv]
    exact h.get_eq hz (by rw [hnone, hv]; rfl) hv

end Instance.Overlaid

end Wiring
