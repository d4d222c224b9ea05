import Wiring.Record.Introspector

/-!
# What an introspector remembers

A program declares each type once. As long as an introspector is only asked
about the types of one program, every descriptor that it remembers is the one
that it would make anew, whatever was forgotten in between.
-/

namespace Wiring.Introspector

variable {σ : Type} {fields : TypeName → List Field} {i : Introspector}

/-- Every remembered descriptor is that of its type, as declared by a program. -/
def Faithful (fields : TypeName → List Field) (i : Introspector) : Prop :=
  ∀ entry ∈ i.descriptors, entry.2.content = Descriptor.build entry.1 (fields entry.1)

theorem faithful_new (fields : TypeName → List Field) : Faithful fields {} :=
  fun _ hentry => (List.not_mem_nil hentry).elim

/-- A faithful introspector answers with the type's own descriptor. -/
theorem descriptor_content {r : Record σ} (h : i.Faithful fields) (hr : fields r.type = r.fields) :
    (descriptor r i).1.content = r.describe := by
  rw [descriptor]
  cases hlookup : i.descriptors.lookup r.type with
  | none => rfl
  | some d =>
    obtain ⟨before, after, hsplit, -⟩ := List.lookup_eq_some_iff.mp hlookup
    have hmem : (r.type, d) ∈ i.descriptors := by
      rw [hsplit]
      exact List.mem_append_right _ (List.mem_cons_self ..)
    have hcontent := h _ hmem
    rw [hr] at hcontent
    exact hcontent

/-- What is made of the descriptor alone is made of the type's own one. -/
theorem looked_of_faithful {r : Record σ} {α : Type} (h : i.Faithful fields)
    (hr : fields r.type = r.fields) (f : Descriptor → α) :
    ((do let d ← descriptor r; return f d.content : StateM Introspector α) i).1 =
      f r.describe := by
  rw [← descriptor_content h hr]
  rfl

theorem Faithful.descriptor {r : Record σ} (h : i.Faithful fields)
    (hr : fields r.type = r.fields) : Faithful fields (descriptor r i).2 := by
  rw [Introspector.descriptor]
  cases i.descriptors.lookup r.type with
  | some d => exact h
  | none =>
    intro entry hentry
    rcases List.mem_append.mp hentry with hentry | hentry
    · exact h entry hentry
    · rw [List.mem_singleton.mp hentry, hr]
      rfl

theorem Faithful.markedIn (h : i.Faithful fields) (d : Descriptor) (m : Mark) :
    Faithful fields (markedIn d m i).2 := by
  rw [Introspector.markedIn]
  cases i.marked.lookup (d.type, m) with
  | some fs => exact h
  | none => exact h

theorem Faithful.evict (h : i.Faithful fields) (type : TypeName) :
    Faithful fields (evict type i).2 :=
  fun entry hentry => h entry (List.mem_filter.mp hentry).1

theorem Faithful.clear (fields : TypeName → List Field) (i : Introspector) :
    Faithful fields (clear i).2 :=
  fun _ hentry => (List.not_mem_nil hentry).elim

theorem Faithful.clearMarked (h : i.Faithful fields) : Faithful fields (clearMarked i).2 :=
  h

end Wiring.Introspector
