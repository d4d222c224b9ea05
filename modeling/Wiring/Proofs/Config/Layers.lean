import Mathlib.Data.List.Induction
import Wiring.Config.Source
import Wiring.Proofs.Config.Tables
import Wiring.Proofs.Toml.Documents

/-!
# The algebra of layers

Laying tables over one another is idempotent. It is associative unless the middle table
has a scalar where the outer two have tables, and it is commutative where both tables
have a value only if both have tables there. So layers may be dropped, exchanged and
merged beforehand within a list of layers. Texts and files are layers, and merging them is
merging their layers.
-/

namespace Wiring.Config

open Wiring.Toml

variable {a b c : Table}

/-- At a path where the middle table has a value that is no table, the other two have tables.
The middle one then makes the first give way to the last altogether. -/
def Separates (a b c : Table) : Prop :=
  ∃ path s v t, follow a path = some (.table s) ∧ follow b path = some v ∧ v.table? = none ∧
    follow c path = some (.table t)

/-- Where both tables have a value, both have tables. -/
def Compatible (b c : Table) : Prop :=
  ∀ path v w, follow b path = some v → follow c path = some w →
    (∃ s, v = .table s) ∧ ∃ t, w = .table t

/-! ## Conflicts in inner tables -/

theorem Separates.of_inner {s t u : Table} {key : String} (ha : a.get? key = some (.table s))
    (hb : b.get? key = some (.table t)) (hc : c.get? key = some (.table u))
    (h : Separates s t u) : Separates a b c := by
  obtain ⟨path, s', v, u', hs, ht, hv, hu⟩ := h
  have hne := ne_nil_of_follow hs
  exact ⟨key :: path, s', v, u', by rw [follow_inner ha hne, hs], by rw [follow_inner hb hne, ht],
    hv, by rw [follow_inner hc hne, hu]⟩

theorem Compatible.inner {s t : Table} {key : String} (h : Compatible b c)
    (hb : b.get? key = some (.table s)) (hc : c.get? key = some (.table t)) : Compatible s t := by
  intro path v w hv hw
  have hne := ne_nil_of_follow hv
  apply h (key :: path)
  · rw [follow_inner hb hne, hv]
  · rw [follow_inner hc hne, hw]

theorem Compatible.symm (h : Compatible b c) : Compatible c b :=
  fun path v w hv hw => (h path w v hw hv).symm

theorem Compatible.not_separates (h : Compatible b c) (a : Table) : ¬ Separates a b c := by
  rintro ⟨path, s, v, t, -, hb, hv, hc⟩
  obtain ⟨⟨u, rfl⟩, -⟩ := h path v _ hb hc
  cases hv

theorem not_separates_self (a b : Table) : ¬ Separates a b b := by
  rintro ⟨path, s, v, t, -, hb, hv, hc⟩
  rw [hb] at hc
  cases hc
  cases hv

/-! ## The laws -/

/-- Over nothing a value is laid as it is. -/
theorem overlayValue_none (v : Value) : overlayValue none v = v :=
  overlayValue_of_old_not_table (by rintro s ⟨⟩) v

/-- **Associativity.** By induction over the middle table: where it has an inner table, the
last one has to go through it, and where it has a scalar, either the last one replaces the
scalar or there is no table below that could be merged. -/
theorem overlay_assoc (ha : a.Ordered) (hb : b.Ordered) (hc : c.Ordered)
    (h : ¬ Separates a b c) : overlay (overlay a b) c = overlay a (overlay b c) := by
  induction hb generalizing a c with
  | @intro b sorted inner ih =>
    apply (sorted_overlay (sorted_overlay ha.sorted b) c).ext (sorted_overlay ha.sorted _)
    intro key
    rw [get?_overlay _ hc.sorted, get?_overlay a sorted, get?_overlay a (sorted_overlay sorted c),
      get?_overlay b hc.sorted]
    cases hw : c.get? key with
    | none => rfl
    | some w =>
      cases hv : b.get? key with
      | none =>
        dsimp only
        rw [overlayValue_none]
      | some v =>
        dsimp only
        congr 1
        cases w with
        | string | integer | float | bool | stamp | array => rfl
        | table u =>
          by_cases hold : ∃ s, a.get? key = some (.table s)
          · obtain ⟨s, hs⟩ := hold
            cases v with
            | table t =>
              have hinner : ¬ Separates s t u := fun hsep => h (hsep.of_inner hs hv hw)
              rw [hs]
              exact congrArg Value.table (ih key t hv (ha.inner hs) (hc.inner hw) hinner)
            | string | integer | float | bool | stamp | array =>
              exact absurd ⟨[key], s, _, u, hs, hv, rfl, hw⟩ h
          · have hold : ∀ s, a.get? key ≠ some (.table s) := fun s hs => hold ⟨s, hs⟩
            rw [overlayValue_of_old_not_table hold, overlayValue_of_old_not_table hold]

/-- Over nothing a table is laid as it is. -/
theorem overlay_nil (hb : b.Ordered) : overlay [] b = b := by
  apply (sorted_overlay Table.ordered_nil.sorted b).ext hb.sorted
  intro key
  rw [get?_overlay [] hb.sorted]
  cases b.get? key with
  | none => rfl
  | some v => exact congrArg some (overlayValue_none v)

theorem overlay_self (hb : b.Ordered) : overlay b b = b := by
  induction hb with
  | @intro b sorted inner ih =>
    apply (sorted_overlay sorted b).ext sorted
    intro key
    rw [get?_overlay b sorted]
    cases hv : b.get? key with
    | none => rfl
    | some v =>
      cases v with
      | table t => exact congrArg (some ∘ Value.table) (ih key t hv)
      | string | integer | float | bool | stamp | array => rfl

/-- **Commutativity.** -/
theorem overlay_comm (hb : b.Ordered) (hc : c.Ordered) (h : Compatible b c) :
    overlay b c = overlay c b := by
  induction hb generalizing c with
  | @intro b sorted inner ih =>
    apply (sorted_overlay sorted c).ext (sorted_overlay hc.sorted b)
    intro key
    rw [get?_overlay b hc.sorted, get?_overlay c sorted]
    cases hw : c.get? key with
    | none =>
      cases b.get? key with
      | none => rfl
      | some v => exact congrArg some (overlayValue_none v).symm
    | some w =>
      cases hv : b.get? key with
      | none => exact congrArg some (overlayValue_none w)
      | some v =>
        obtain ⟨⟨s, rfl⟩, ⟨t, rfl⟩⟩ := h [key] v w hv hw
        exact congrArg (some ∘ Value.table) (ih key s hv (hc.inner hw) (h.inner hv hw))

/-! ## Lists of layers -/

/-- A table as the sources of a configuration give it. -/
structure Layer where
  table : Table
  ordered : table.Ordered

namespace Layer

/-- What an empty document contributes. -/
def empty : Layer := ⟨[], Table.ordered_nil⟩

/-- Two layers merged into one. -/
def followedBy (b c : Layer) : Layer :=
  ⟨overlay b.table c.table, ordered_overlay b.ordered c.ordered⟩

/-- The table that layers are merged to, one applied after the other. -/
def merge (layers : List Layer) : Table :=
  applyAll [] (layers.map fun l => rootEntry l.table)

theorem merge_append (front back : List Layer) :
    merge (front ++ back) = applyAll (merge front) (back.map fun l => rootEntry l.table) := by
  rw [merge, List.map_append, applyAll_append, merge]

theorem applyAll_map_cons (t : Table) (l : Layer) (rest : List Layer) :
    applyAll t ((l :: rest).map fun l => rootEntry l.table) =
      applyAll (overlay t l.table) (rest.map fun l => rootEntry l.table) := rfl

theorem ordered_merge (layers : List Layer) : (merge layers).Ordered := by
  induction layers using List.reverseRecOn with
  | nil => exact Table.ordered_nil
  | append_singleton front l ih =>
    rw [merge_append]
    exact ordered_overlay ih l.ordered

end Layer

/-! ## Sources as layers -/

/-- The layer that a text or a file contributes. A missing file that is not required
contributes the empty one. -/
inductive Source.Gives : Source → Layer → Prop
  | text {contents : String} {l : Layer} (parsed : parse contents = some l.table) :
    Gives (.text contents) l
  | file {path : String} {required : Bool} {bytes : List UInt8} {s : List Char} {l : Layer}
    (decoded : Text.Utf8.decode bytes = .ok s) (parsed : parse (String.ofList s) = some l.table) :
    Gives (.file path required (.contents bytes)) l
  | missing (path : String) : Gives (.file path false .missing) .empty

/-- The source is a text or a file. -/
def Source.IsDocument : Source → Prop
  | .text _ | .file _ _ _ => True
  | .variables _ | .entries _ => False

namespace Source

variable {s : Source} {sources : List Source}

theorem Gives.load {l : Layer} (h : s.Gives l) :
    ∃ es, s.load = .ok es ∧ ∀ t, applyAll t es = overlay t l.table := by
  cases h with
  | text parsed =>
    refine ⟨[rootEntry l.table], ?_, fun t => rfl⟩
    rw [Source.load, textEntries, parsed]
  | file decoded parsed =>
    refine ⟨[rootEntry l.table], ?_, fun t => rfl⟩
    rw [Source.load, fileEntries, decoded]
    dsimp only
    rw [parsed]
  | missing path => exact ⟨[], rfl, fun t => rfl⟩

/-- A text or a file that loads contributes a layer. -/
theorem IsDocument.exists_gives {es : List Entry} (hs : s.IsDocument) (h : s.load = .ok es) :
    ∃ l, s.Gives l := by
  cases s with
  | text contents =>
    rw [Source.load, textEntries] at h
    split at h
    · rename_i t ht
      exact ⟨⟨t, ordered_parse ht⟩, .text ht⟩
    · cases h
  | file path required reading =>
    cases reading with
    | missing =>
      cases required with
      | false => exact ⟨.empty, .missing path⟩
      | true => cases h
    | unreadable => cases h
    | contents bytes =>
      rw [Source.load, fileEntries] at h
      split at h
      · cases h
      · rename_i chars hchars
        split at h
        · rename_i t ht
          exact ⟨⟨t, ordered_parse ht⟩, .file hchars ht⟩
        · cases h
  | _ => exact hs.elim

/-- **Merging documents** is merging their layers. -/
theorem mergeSources_eq_ok_iff (hs : ∀ s ∈ sources, s.IsDocument) (t u : Table) :
    mergeSources t sources = .ok u ↔
      ∃ layers, List.Forall₂ Gives sources layers ∧
        applyAll t (layers.map fun l => rootEntry l.table) = u := by
  induction sources generalizing t with
  | nil =>
    constructor
    · rintro ⟨⟩
      exact ⟨[], .nil, rfl⟩
    · rintro ⟨layers, hlayers, rfl⟩
      cases hlayers
      rfl
  | cons s rest ih =>
    obtain ⟨hs, hrest⟩ := List.forall_mem_cons.mp hs
    rw [mergeSources]
    constructor
    · intro h
      split at h
      · rename_i es hload
        obtain ⟨l, hl⟩ := hs.exists_gives hload
        obtain ⟨es', hload', hes⟩ := hl.load
        rw [hload] at hload'
        cases hload'
        rw [hes] at h
        obtain ⟨layers, hlayers, hu⟩ := (ih hrest _).mp h
        exact ⟨l :: layers, .cons hl hlayers, hu⟩
      · cases h
    · rintro ⟨layers, hlayers, hu⟩
      cases hlayers with
      | @cons _ l _ layers hl hlayers =>
        obtain ⟨es, hload, hes⟩ := hl.load
        rw [hload]
        dsimp only
        rw [hes]
        exact (ih hrest _).mpr ⟨layers, hlayers, hu⟩

end Source

/-! ## The algebra -/

open Layer

/-- **The algebra of layers.** One layer is merged to its table. Within any list of layers, an
empty layer makes no difference, and neither does a layer that is applied twice in a row. Two
layers in a row may be exchanged if they conflict nowhere. They may be merged first, unless
there is a path at which the first of them has a value that is no table while the second and
what the layers before have come to both have tables. Merging texts and files is merging the
layers that they contribute. -/
theorem layers_algebra (front back : List Layer) (b c : Layer) :
    merge [b] = b.table ∧
    merge (front ++ .empty :: back) = merge (front ++ back) ∧
    merge (front ++ b :: b :: back) = merge (front ++ b :: back) ∧
    (Compatible b.table c.table →
      merge (front ++ b :: c :: back) = merge (front ++ c :: b :: back)) ∧
    (¬ Separates (merge front) b.table c.table →
      merge (front ++ b :: c :: back) = merge (front ++ b.followedBy c :: back)) ∧
    ∀ sources : List Source, (∀ s ∈ sources, s.IsDocument) → ∀ t,
      mergeSources [] sources = .ok t ↔
        ∃ layers, List.Forall₂ Source.Gives sources layers ∧ merge layers = t := by
  have ha := ordered_merge front
  simp only [merge_append, applyAll_map_cons]
  refine ⟨overlay_nil b.ordered, rfl, ?_, ?_, ?_,
    fun sources hs t => Source.mergeSources_eq_ok_iff hs [] t⟩
  · rw [overlay_assoc ha b.ordered b.ordered (not_separates_self _ _), overlay_self b.ordered]
  · intro h
    rw [overlay_assoc ha b.ordered c.ordered (h.not_separates _),
      overlay_assoc ha c.ordered b.ordered (h.symm.not_separates _),
      overlay_comm b.ordered c.ordered h]
  · intro h
    rw [overlay_assoc ha b.ordered c.ordered h]
    rfl

/-- A scalar between two tables makes a difference to what is left of the first one. -/
example :
    let a : Table := [("pool", .table [("size", .bool true)])]
    let b : Table := [("pool", .bool false)]
    let c : Table := [("pool", .table [])]
    overlay (overlay a b) c = [("pool", .table [])] ∧ overlay a (overlay b c) = a := by
  exact ⟨rfl, rfl⟩

end Wiring.Config
