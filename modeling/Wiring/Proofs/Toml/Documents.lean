import Wiring.Proofs.Config.Tables
import Wiring.Toml.Reader

/-!
# The tables of documents

A document denotes an ordered table, whatever order its keys came in: a table is made by
putting every key in its place, and no scalar of a document is a table in disguise.
-/

namespace Wiring.Toml

/-- No scalar is a table. Items of arrays may be anything, for keys do not lead to them. -/
inductive Node.Plain : Node → Prop
  | scalar {v : Value} (h : v.table? = none) : Plain (.scalar v)
  | array (items : List Node) : Plain (.array items)
  | inlineTable {entries : Entries} (h : ∀ e ∈ entries, Plain e.2) : Plain (.inlineTable entries)
  | table {origin : Origin} {entries : Entries} (h : ∀ e ∈ entries, Plain e.2) :
    Plain (.table origin entries)
  | tables (items : List Entries) : Plain (.tables items)

namespace Entries

def Plain (es : Entries) : Prop :=
  ∀ e ∈ es, e.2.Plain

variable {es es' : Entries} {key : String} {n : Node}

theorem plain_nil : Plain [] := by
  rintro e ⟨⟩

theorem Plain.of_get? (h : es.Plain) (hn : es.get? key = some n) : n.Plain := by
  induction es with
  | nil => cases hn
  | cons entry rest ih =>
    obtain ⟨hhead, hrest⟩ := List.forall_mem_cons.mp h
    rw [get?, List.lookup_cons] at hn
    split at hn
    · cases hn
      exact hhead
    · exact ih hrest hn

theorem Plain.put (h : es.Plain) (hn : n.Plain) (key : String) : (es.put key n).Plain := by
  induction es with
  | nil => exact List.forall_mem_singleton.mpr hn
  | cons entry rest ih =>
    obtain ⟨hhead, hrest⟩ := List.forall_mem_cons.mp h
    rw [Entries.put]
    split
    · exact List.forall_mem_cons.mpr ⟨hn, hrest⟩
    · exact List.forall_mem_cons.mpr ⟨hhead, ih hrest⟩

/-- A change of entries that keeps them plain. -/
def Keeps (f : Origin → Entries → Option Entries) : Prop :=
  ∀ here es es', es.Plain → f here es = some es' → es'.Plain

/-- Changing the entries at the end of a path changes plain entries to plain ones. -/
theorem keeps_change {f : Origin → Entries → Option Entries} (hf : Keeps f) (made : Origin)
    (path : List String) : Keeps fun here es => change made f here path es := by
  induction path with
  | nil => exact hf
  | cons key path ih =>
    intro here es es' h hchange
    dsimp only at hchange
    rw [change] at hchange
    -- The key leads nowhere, to a value, to a table, or to tables of which the last is entered.
    split at hchange
    · obtain ⟨inner, hinner, rfl⟩ := Option.map_eq_some_iff.mp hchange
      exact h.put (.table (ih _ _ _ plain_nil hinner)) key
    · cases hchange
    · cases hchange
    · cases hchange
    · rename_i origin inner hget
      split at hchange
      · cases hchange
      · obtain ⟨inner', hinner, rfl⟩ := Option.map_eq_some_iff.mp hchange
        have hplain : Entries.Plain inner := by
          cases h.of_get? hget with
          | table hentries => exact hentries
        exact h.put (.table (ih _ _ _ hplain hinner)) key
    · split at hchange
      · cases hchange
      · obtain ⟨inner', -, rfl⟩ := Option.map_eq_some_iff.mp hchange
        exact h.put (.tables _) key

theorem keeps_addNew (dottedKey : Bool) (key : String) (hn : n.Plain) :
    Keeps (addNew dottedKey key n) := by
  intro here es es' h hadd
  rw [addNew] at hadd
  split at hadd
  · cases hadd
  · split at hadd
    · cases hadd
      exact h.put hn key
    · cases hadd

theorem Plain.addValue (h : es.Plain) (hn : n.Plain) {path : List String}
    (hadd : es.addValue path key n = some es') : es'.Plain :=
  keeps_change (keeps_addNew _ key hn) .dotted path .header es es' h hadd

theorem keeps_openTable (key : String) : Keeps (openTable key) := by
  intro here es es' h hopen
  rw [openTable] at hopen
  split at hopen
  · cases hopen
    exact h.put (.table plain_nil) key
  · -- A step is opened: its table moves to the end as it is.
    rename_i inner hget
    cases hopen
    have hplain : Entries.Plain inner := by
      cases h.of_get? hget with
      | table hentries => exact hentries
    refine List.forall_mem_append.mpr ⟨?_, List.forall_mem_singleton.mpr (.table hplain)⟩
    exact fun e he => h e (List.mem_of_mem_filter he)
  · cases hopen

theorem keeps_openItem (key : String) : Keeps (openItem key) := by
  intro here es es' h hopen
  rw [openItem] at hopen
  split at hopen
  · cases hopen
    exact h.put (.tables _) key
  · cases hopen
    exact h.put (.tables _) key
  · cases hopen

end Entries

/-! ## Reading -/

theorem table?_of_readScalar {s rest : List Char} {v : Value}
    (h : readScalar s = some (v, rest)) : v.table? = none := by
  unfold readScalar at h
  split at h
  · obtain ⟨x, -, hx⟩ := Option.map_eq_some_iff.mp h
    cases hx
    rfl
  · obtain ⟨x, -, hx⟩ := Option.map_eq_some_iff.mp h
    cases hx
    rfl
  · cases h
    rfl
  · cases h
    rfl
  · split at h
    · cases h
      rfl
    · split at h
      · cases h
        rfl
      · obtain ⟨x, -, hx⟩ := Option.map_eq_some_iff.mp h
        cases hx
        rfl

/-- Values that are read are plain, and so are the entries of inline tables. -/
theorem plain_of_read (fuel : Nat) :
    (∀ depth s n rest, readValue fuel depth s = some (n, rest) → n.Plain) ∧
    (∀ depth es s es' rest, Entries.Plain es → readPairs fuel depth es s = some (es', rest) →
      es'.Plain) := by
  induction fuel with
  | zero =>
    constructor
    · intro depth s n rest h
      cases h
    · intro depth es s es' rest _ h
      cases h
  | succ fuel ih =>
    obtain ⟨ihvalue, ihpairs⟩ := ih
    constructor
    · intro depth s n rest h
      unfold readValue at h
      split at h
      · cases h
      · cases h
      · obtain ⟨items, -, hn⟩ := Option.map_eq_some_iff.mp h
        cases hn
        exact .array _
      · split at h
        · cases h
          exact .inlineTable Entries.plain_nil
        · obtain ⟨⟨entries, r⟩, hentries, hn⟩ := Option.map_eq_some_iff.mp h
          cases hn
          exact .inlineTable (ihpairs _ _ _ _ _ Entries.plain_nil hentries)
      · obtain ⟨⟨v, r⟩, hv, hn⟩ := Option.map_eq_some_iff.mp h
        cases hn
        exact .scalar (table?_of_readScalar hv)
    · intro depth es s es' rest hes h
      unfold readPairs at h
      split at h
      · split at h
        · cases h
        · rename_i n r hn
          split at h
          · cases h
          · rename_i added hadd
            have hadded := hes.addValue (ihvalue _ _ _ _ hn) hadd
            split at h
            · exact ihpairs _ _ _ _ _ hadded h
            · cases h
              exact hadded
            · cases h
      · cases h

namespace Document

variable {d d' : Document} {path : List String} {key : String}

theorem plain_header (h : d.entries.Plain) (hd : d.header path key = some d') :
    d'.entries.Plain := by
  obtain ⟨es, hes, rfl⟩ := Option.map_eq_some_iff.mp hd
  exact Entries.keeps_change (Entries.keeps_openTable key) _ _ _ _ _ h hes

theorem plain_arrayHeader (h : d.entries.Plain) (hd : d.arrayHeader path key = some d') :
    d'.entries.Plain := by
  obtain ⟨es, hes, rfl⟩ := Option.map_eq_some_iff.mp hd
  exact Entries.keeps_change (Entries.keeps_openItem key) _ _ _ _ _ h hes

theorem plain_add {n : Node} (h : d.entries.Plain) (hn : n.Plain)
    (hd : d.add path key n = some d') : d'.entries.Plain := by
  obtain ⟨es, hes, rfl⟩ := Option.map_eq_some_iff.mp hd
  have hkeeps : Entries.Keeps fun _ es => es.addValue path key n :=
    fun _ _ _ h hadd => h.addValue hn hadd
  exact Entries.keeps_change hkeeps _ _ _ _ _ h hes

end Document

theorem plain_of_readLine {d d' : Document} {s rest : List Char} (h : d.entries.Plain)
    (hline : readLine d s = some (d', rest)) : d'.entries.Plain := by
  unfold readLine at hline
  split at hline
  · split at hline
    · obtain ⟨r, -, hd⟩ := Option.bind_eq_some_iff.mp hline
      obtain ⟨e, he, hd⟩ := Option.bind_eq_some_iff.mp hd
      cases hd
      exact Document.plain_arrayHeader h he
    · cases hline
  · split at hline
    · obtain ⟨r, -, hd⟩ := Option.bind_eq_some_iff.mp hline
      obtain ⟨e, he, hd⟩ := Option.bind_eq_some_iff.mp hd
      cases hd
      exact Document.plain_header h he
    · cases hline
  · obtain ⟨r, -, hd⟩ := Option.map_eq_some_iff.mp hline
    cases hd
    exact h
  · obtain ⟨r, -, hd⟩ := Option.map_eq_some_iff.mp hline
    cases hd
    exact h
  · obtain ⟨r, -, hd⟩ := Option.map_eq_some_iff.mp hline
    cases hd
    exact h
  · split at hline
    · obtain ⟨⟨n, r⟩, hn, hd⟩ := Option.bind_eq_some_iff.mp hline
      obtain ⟨r', -, hd⟩ := Option.bind_eq_some_iff.mp hd
      obtain ⟨e, he, hd⟩ := Option.bind_eq_some_iff.mp hd
      cases hd
      exact Document.plain_add h ((plain_of_read _).1 _ _ _ _ hn) he
    · cases hline

theorem plain_of_readLines {fuel : Nat} {d d' : Document} {s : List Char} (h : d.entries.Plain)
    (hlines : readLines fuel d s = some d') : d'.entries.Plain := by
  induction fuel generalizing d s with
  | zero => cases hlines
  | succ fuel ih =>
    rw [readLines] at hlines
    split at hlines
    · cases hlines
      exact h
    · split at hlines
      · rename_i e r hline
        exact ih (plain_of_readLine h hline) hlines
      · cases hlines

/-! ## The table of a document -/

theorem Table.Ordered.put {t : Table} {v : Value} (h : t.Ordered)
    (hv : ∀ u : Table, v = .table u → u.Ordered) (key : String) : (t.put key v).Ordered := by
  refine .intro (h.sorted.put key v) ?_
  intro k u hu
  by_cases hk : k = key
  · subst hk
    rw [Table.get?_put_self] at hu
    exact hv u (Option.some.inj hu)
  · rw [Table.get?_put_of_ne t v hk] at hu
    exact h.inner hu

/-- Entries of which each makes an ordered table, if any, make one. -/
theorem ordered_toTable? {es : Entries} {t : Table}
    (h : ∀ e ∈ es, ∀ u : Table, e.2.toValue? = some (.table u) → u.Ordered)
    (ht : Node.toTable? es = some t) : t.Ordered := by
  induction es generalizing t with
  | nil =>
    cases ht
    exact Table.ordered_nil
  | cons entry rest ih =>
    obtain ⟨hhead, hrest⟩ := List.forall_mem_cons.mp h
    rw [Node.toTable?] at ht
    split at ht
    · rename_i v hv
      obtain ⟨u, hu, rfl⟩ := Option.map_eq_some_iff.mp ht
      refine (ih hrest hu).put ?_ _
      rintro w rfl
      exact hhead w hv
    · cases ht

theorem toTable?_of_valueOr {table : Option Table} {es : Entries} {t : Table}
    (h : es.valueOr table = some (.table t)) : table = some t := by
  have hmap : ∀ {o : Option Table}, o.map Value.table = some (.table t) → o = some t := by
    rintro (_ | u) ⟨⟩
    rfl
  rw [Entries.valueOr.eq_def] at h
  split at h
  · split at h
    · obtain ⟨x, -, hx⟩ := Option.map_eq_some_iff.mp h
      cases hx
    · exact hmap h
  · exact hmap h

theorem Node.Plain.ordered {n : Node} (h : n.Plain) {t : Table}
    (ht : n.toValue? = some (.table t)) : t.Ordered := by
  induction h generalizing t with
  | scalar hv =>
    rw [Node.toValue?] at ht
    cases ht
    cases hv
  | array items | tables items =>
    rw [Node.toValue?] at ht
    obtain ⟨x, -, hx⟩ := Option.map_eq_some_iff.mp ht
    cases hx
  | inlineTable _ ih | table _ ih =>
    rw [Node.toValue?] at ht
    exact ordered_toTable? (fun e he u hu => ih e he hu) (toTable?_of_valueOr ht)

/-- **Documents.** A text denotes an ordered table, if any. -/
theorem ordered_parse {s : String} {t : Table} (h : parse s = some t) : t.Ordered := by
  obtain ⟨d, hd, ht⟩ := Option.bind_eq_some_iff.mp h
  have hplain := plain_of_readLines Entries.plain_nil hd
  exact ordered_toTable? (fun e he u hu => (hplain e he).ordered hu) ht

end Wiring.Toml
