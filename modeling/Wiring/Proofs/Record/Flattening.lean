import Wiring.Proofs.Record.BulkWrites
import Wiring.Proofs.Record.Merging

/-!
# Flattening

Flattening an instance lists each name that it can be read under once, with its value.
So writing the list to an instance of any other type is what a copy does: both lay the
same source over the target. Writing in bulk only counts, besides, the names that the
two types have in common.
-/

namespace Wiring

namespace Lineage

variable {l m : Lineage} {s t y : Instance} {name : String} {v : Value}

/-- The names under which fields are accessible. -/
def names (l : Lineage) : Finset String :=
  (l.record.describe.accessible.map (·.name)).toFinset

theorem mem_names_iff : name ∈ l.names ↔ (l.declared? name).isSome = true := by
  rw [names, List.mem_toFinset, List.mem_map]
  constructor
  · rintro ⟨f, hf, rfl⟩
    obtain ⟨d, hd, -⟩ := declared?_of_mem_accessible hf
    rw [hd]
    rfl
  · intro h
    obtain ⟨d, hd⟩ := Option.isSome_iff_exists.mp h
    obtain ⟨f, hf, hname, -⟩ := exists_accessible hd
    exact ⟨f, hf, hname⟩

/-! ## The list of an instance -/

theorem map_fst_toPairs (m : Lineage) (s : Instance) :
    (m.record.toPairs m.record.describe s).map (·.1) =
      m.record.describe.accessible.map (·.name) := by
  rw [Record.toPairs, List.map_map]
  rfl

theorem keyed_toPairs (m : Lineage) (s : Instance) :
    Keyed (m.record.toPairs m.record.describe s) := by
  rw [Keyed, map_fst_toPairs]
  exact Descriptor.nodup_accessible _

theorem mem_toPairs_iff (hs : s.Fits m) :
    (name, v) ∈ m.record.toPairs m.record.describe s ↔ s.get name = some v := by
  rw [Record.toPairs, List.mem_map]
  constructor
  · rintro ⟨f, hf, hpair⟩
    obtain ⟨d, hd, -⟩ := declared?_of_mem_accessible hf
    obtain ⟨u, hu⟩ := hs.exists_get hd
    rw [show m.record.get s f.name = some u from hu] at hpair
    cases hpair
    exact hu
  · intro hv
    obtain ⟨d, hd⟩ := hs.exists_declared hv
    obtain ⟨f, hf, rfl, -⟩ := exists_accessible hd
    refine ⟨f, hf, ?_⟩
    rw [show m.record.get s f.name = some v from hv]
    rfl

/-- The list of an instance says what its reads say. -/
theorem lastValue?_toPairs (hs : s.Fits m) :
    lastValue? (m.record.toPairs m.record.describe s) = fun name => s.get name := by
  funext name
  apply Option.ext
  intro v
  rw [(m.keyed_toPairs s).lastValue?_eq_some_iff, mem_toPairs_iff hs]

theorem converts_toPairs (hs : s.Fits m) (h : l.Takes fun name => s.get name) :
    l.Converts (m.record.toPairs m.record.describe s) := by
  intro p hp f hf
  obtain ⟨name, v⟩ := p
  exact h name f v hf ((mem_toPairs_iff hs).mp hp)

/-- The names of the second type that the first one has too, in order. -/
def sharedNames (l m : Lineage) : List String :=
  (m.record.describe.accessible.map (·.name)).filter fun name => (l.declared? name).isSome

theorem nodup_sharedNames (l m : Lineage) : (l.sharedNames m).Nodup :=
  (Descriptor.nodup_accessible _).filter _

theorem toFinset_sharedNames (l m : Lineage) : (l.sharedNames m).toFinset = l.names ∩ m.names := by
  apply Finset.ext
  intro name
  rw [sharedNames, List.mem_toFinset, List.mem_filter, Finset.mem_inter, mem_names_iff, names,
    List.mem_toFinset, and_comm]

theorem countKnown_toPairs (l m : Lineage) (s : Instance) :
    l.countKnown (m.record.toPairs m.record.describe s) = (l.names ∩ m.names).card :=
  calc l.countKnown (m.record.toPairs m.record.describe s)
      = (l.sharedNames m).length := by
        rw [sharedNames, ← List.countP_eq_length_filter, ← map_fst_toPairs m s, List.countP_map]
        rfl
    _ = (l.sharedNames m).toFinset.card :=
        (List.toFinset_card_of_nodup (nodup_sharedNames l m)).symm
    _ = (l.names ∩ m.names).card := by rw [toFinset_sharedNames]

/-- Writing the list of an instance ends well just when copying the instance does, and
then as the copy does. -/
theorem setValues_toPairs_eq_ok_iff (hs : s.Fits m) (ht : t.Fits l) {n : Nat} :
    l.record.setValues l.record.describe t (m.record.toPairs m.record.describe s) = (.ok n, y) ↔
      n = (l.names ∩ m.names).card ∧
        l.record.copyFrom l.record.describe .all (fun name => s.get name) t = (.ok (), y) := by
  rw [setValues_eq_ok_iff ht, copyFrom_eq_ok_iff ht, CopyMode.offers_all, lastValue?_toPairs hs,
    countKnown_toPairs]
  constructor
  · rintro ⟨-, hcount, hover⟩
    exact ⟨hcount, hover⟩
  · rintro ⟨hcount, hover⟩
    exact ⟨converts_toPairs hs hover.takes, hcount, hover⟩

/-- Between instances of one type a copy ends well, and the target then looks like the
source. -/
theorem copyFrom_same (hs : s.Fits l) (ht : t.Fits l) :
    ∃ y, l.record.copyFrom l.record.describe .all (fun name => s.get name) t = (.ok (), y) ∧
      y.Fits l ∧ ∀ name, y.get name = s.get name := by
  obtain ⟨y, hrun, hover⟩ := copyFrom_of_takes ht (hs.takes_offers .all t)
  rw [CopyMode.offers_all] at hover
  have hbelow : t.Overlaid l (fun name => none.or (s.get name)) y := hover
  exact ⟨y, hrun, hover.fits, fun name => hbelow.get_eq_of_below hs rfl⟩

theorem toPairs_congr (h : ∀ name, y.get name = s.get name) :
    l.record.toPairs l.record.describe y = l.record.toPairs l.record.describe s := by
  apply List.map_congr_left
  intro f _
  rw [show l.record.get y f.name = l.record.get s f.name from h f.name]

end Lineage

/-- **To copy is to flatten and write.** Copying one instance to another succeeds just when
writing its flattened list there does, and both leave the same instance; the number of
values written is that of the names accessible on both types. Between instances of one
type both succeed: then the target flattens to what the source does, and is equal to the
source where nothing is hidden. -/
theorem copy_is_flatten_and_write {fields : TypeName → List Field} {i j k : Introspector}
    {l m : Lineage} {s t : Instance} (hi : i.Faithful fields) (hj : j.Faithful fields)
    (hk : k.Faithful fields) (hl : fields l.own.type = l.describe)
    (hm : fields m.own.type = m.describe) (hs : s.Fits m) (ht : t.Fits l) :
    let copied := (Introspector.copyFrom l.record .all (fun name => s.get name) t i).1
    let pairs := (Introspector.toPairs m.record s j).1
    let written := (Introspector.setValues l.record t pairs k).1
    ((∃ y, copied = (.ok (), y)) ↔ ∃ n y, written = (.ok n, y)) ∧
    (∀ n y z, copied = (.ok (), y) → written = (.ok n, z) →
      z = y ∧ n = (l.names ∩ m.names).card) ∧
    (m = l → ∃ y, copied = (.ok (), y) ∧ written = (.ok l.names.card, y) ∧
      (Introspector.toPairs l.record y j).1 = pairs ∧ (l.Unshadowed → y = s)) := by
  intro copied pairs written
  have hcopied : copied =
      l.record.copyFrom l.record.describe .all (fun name => s.get name) t :=
    Introspector.looked_of_faithful hi hl fun d =>
      l.record.copyFrom d .all (fun name => s.get name) t
  have hpairs : pairs = m.record.toPairs m.record.describe s :=
    Introspector.looked_of_faithful hj hm fun d => m.record.toPairs d s
  have hwritten : written = l.record.setValues l.record.describe t pairs :=
    Introspector.looked_of_faithful hk hl fun d => l.record.setValues d t pairs
  have hboth : ∀ n y, written = (.ok n, y) ↔
      n = (l.names ∩ m.names).card ∧ copied = (.ok (), y) := by
    intro n y
    rw [hwritten, hpairs, hcopied]
    exact Lineage.setValues_toPairs_eq_ok_iff hs ht
  refine ⟨?_, ?_, ?_⟩
  · constructor
    · rintro ⟨y, hy⟩
      exact ⟨_, y, (hboth _ y).mpr ⟨rfl, hy⟩⟩
    · rintro ⟨n, y, hy⟩
      exact ⟨y, ((hboth n y).mp hy).2⟩
  · intro n y z hy hz
    obtain ⟨hn, hcopied⟩ := (hboth n z).mp hz
    rw [hy] at hcopied
    cases hcopied
    exact ⟨rfl, hn⟩
  · rintro rfl
    obtain ⟨y, hrun, hy, hget⟩ := Lineage.copyFrom_same hs ht
    have hsame : copied = (.ok (), y) := hcopied.trans hrun
    have hflat : (Introspector.toPairs m.record y j).1 = m.record.toPairs m.record.describe y :=
      Introspector.looked_of_faithful hj hm fun d => m.record.toPairs d y
    refine ⟨y, hsame, (hboth _ y).mpr ⟨by rw [Finset.inter_self], hsame⟩, ?_, ?_⟩
    · rw [hflat, hpairs]
      exact Lineage.toPairs_congr hget
    · intro h
      exact hy.ext_of_unshadowed hs h hget

/-- The type of tickets. -/
def ticketType : Lineage where
  own := ⟨⟨"office::Ticket"⟩, [⟨"level", .text, []⟩, ⟨"title", .int .i64, []⟩]⟩
  ancestors := []

/-- A ticket is written to a badge as its copy is, with both of its values. A guest to whom
the host is copied is the host. -/
theorem ticket_flattened_to_badge :
    (∃ y, (Introspector.copyFrom badge.record .all (fun name => ticket.get name)
        badge.blank {}).1 = (.ok (), y) ∧
      (Introspector.setValues badge.record badge.blank
        (Introspector.toPairs ticketType.record ticket {}).1 {}).1 = (.ok 2, y)) ∧
    (Introspector.copyFrom contact.record .all
        (fun name => (contactOf "host" .null (.integer 3)).get name)
        (contactOf "guest" (.text "12") .null) {}).1 =
      (.ok (), contactOf "host" .null (.integer 3)) := by
  constructor
  · have hfaithful := Introspector.faithful_new fun type =>
      if type = badge.own.type then badge.describe else ticketType.describe
    obtain ⟨hok, hsame, -⟩ := copy_is_flatten_and_write hfaithful hfaithful hfaithful
      (l := badge) (m := ticketType) (if_pos rfl) (if_neg (by decide))
      (show ticket.Fits ticketType by decide) badge.blank_fits
    have hcopied : (Introspector.copyFrom badge.record .all (fun name => ticket.get name)
        badge.blank {}).1.1 = .ok () := by
      decide
    obtain ⟨y, hy⟩ : ∃ y, (Introspector.copyFrom badge.record .all (fun name => ticket.get name)
        badge.blank {}).1 = (.ok (), y) := ⟨_, Prod.ext hcopied rfl⟩
    obtain ⟨n, z, hz⟩ := hok.mp ⟨y, hy⟩
    obtain ⟨rfl, hn⟩ := hsame n y z hy hz
    have hcount : n = 2 := hn.trans (by decide)
    rw [hcount] at hz
    exact ⟨z, hy, hz⟩
  · have hfaithful := Introspector.faithful_new fun _ => contact.describe
    obtain ⟨-, -, hsame⟩ := copy_is_flatten_and_write hfaithful hfaithful hfaithful
      (l := contact) (m := contact) rfl rfl
      (show (contactOf "host" .null (.integer 3)).Fits contact by decide)
      (show (contactOf "guest" (.text "12") .null).Fits contact by decide)
    obtain ⟨y, hy, -, -, heq⟩ := hsame rfl
    rw [hy, heq (by decide)]

end Wiring
