import Wiring.Proofs.Record.Merging

/-!
# Cloning

A clone is a default instance to which a primary instance and then further sources are
copied in turn. Whether a source can be copied depends on the type alone, not on what the
sources before it have left. So the copies either all succeed or there is no clone, and
together they are one overlay, in which the last source that has a name decides.
-/

namespace Wiring

/-- What the last of the sources that have the name has under it. -/
def lastOffer? (sources : List (String → Option Value)) (name : String) : Option Value :=
  sources.reverse.findSome? fun source => source name

theorem lastOffer?_cons (source : String → Option Value) (rest : List (String → Option Value)) :
    lastOffer? (source :: rest) = fun name => (lastOffer? rest name).or (source name) := by
  funext name
  rw [lastOffer?, List.reverse_cons, List.findSome?_append, List.findSome?_singleton]
  rfl

namespace Lineage

variable {l : Lineage} {x y : Instance} {source : String → Option Value}
  {sources : List (String → Option Value)}

theorem exists_copyFrom_all_iff (hx : x.Fits l) :
    (∃ y, l.record.copyFrom l.record.describe .all source x = (.ok (), y)) ↔ l.Takes source := by
  rw [exists_copyFrom_iff hx, CopyMode.offers_all]

/-- Sources that can be copied can be copied one after the other. -/
theorem copyAll_of_takes (hx : x.Fits l) (h : ∀ source ∈ sources, l.Takes source) :
    ∃ y, l.record.copyAll l.record.describe x sources = .ok y ∧
      x.Overlaid l (lastOffer? sources) y := by
  induction sources generalizing x with
  | nil => exact ⟨x, rfl, .refl hx⟩
  | cons source rest ih =>
    obtain ⟨hsource, hrest⟩ := List.forall_mem_cons.mp h
    obtain ⟨y, hrun⟩ := (exists_copyFrom_all_iff hx).mpr hsource
    have hfirst := (copyFrom_eq_ok_iff hx).mp hrun
    rw [CopyMode.offers_all] at hfirst
    obtain ⟨z, hz, hlater⟩ := ih hfirst.fits hrest
    refine ⟨z, ?_, ?_⟩
    · rw [Record.copyAll, hrun]
      exact hz
    · rw [lastOffer?_cons]
      exact hfirst.trans hlater

theorem takes_of_copyAll (hx : x.Fits l)
    (h : l.record.copyAll l.record.describe x sources = .ok y) :
    ∀ source ∈ sources, l.Takes source := by
  induction sources generalizing x with
  | nil => exact fun _ hsource => (List.not_mem_nil hsource).elim
  | cons source rest ih =>
    rw [Record.copyAll] at h
    split at h
    · rename_i z hrun
      have hfirst := (copyFrom_eq_ok_iff hx).mp hrun
      have hsource := (exists_copyFrom_all_iff hx).mp ⟨z, hrun⟩
      exact List.forall_mem_cons.mpr ⟨hsource, ih hfirst.fits h⟩
    · cases h

/-- **Copies in a row are one overlay** of the last offer for each name. -/
theorem copyAll_eq_ok_iff (hx : x.Fits l) :
    l.record.copyAll l.record.describe x sources = .ok y ↔
      (∀ source ∈ sources, l.Takes source) ∧ x.Overlaid l (lastOffer? sources) y := by
  constructor
  · intro h
    have htakes := takes_of_copyAll hx h
    obtain ⟨z, hrun, hover⟩ := copyAll_of_takes hx htakes
    rw [hrun] at h
    cases h
    exact ⟨htakes, hover⟩
  · rintro ⟨htakes, hover⟩
    obtain ⟨z, hrun, hover'⟩ := copyAll_of_takes hx htakes
    rw [hrun, hover.unique hover']

/-- What a clone is: the primary instance, which any default takes, below the others. -/
theorem cloneFrom_eq_ok_iff {blank primary : Instance} (hblank : blank.Fits l)
    (hprimary : primary.Fits l) (others : List (String → Option Value)) :
    l.record.cloneFrom l.record.describe blank primary others = .ok y ↔
      (∀ source ∈ others, l.Takes source) ∧
        blank.Overlaid l (fun name => (lastOffer? others name).or (primary.get name)) y := by
  rw [Record.cloneFrom, copyAll_eq_ok_iff hblank, List.forall_mem_cons, lastOffer?_cons]
  constructor
  · rintro ⟨⟨-, hothers⟩, hover⟩
    exact ⟨hothers, hover⟩
  · rintro ⟨hothers, hover⟩
    exact ⟨⟨hprimary.takes, hothers⟩, hover⟩

theorem exists_cloneFrom_iff {blank primary : Instance} (hblank : blank.Fits l)
    (hprimary : primary.Fits l) (others : List (String → Option Value)) :
    (∃ y, l.record.cloneFrom l.record.describe blank primary others = .ok y) ↔
      ∀ source ∈ others, l.Takes source := by
  constructor
  · rintro ⟨y, hy⟩
    exact ((cloneFrom_eq_ok_iff hblank hprimary others).mp hy).1
  · intro hothers
    have hall := List.forall_mem_cons.mpr ⟨hprimary.takes, hothers⟩
    obtain ⟨y, hrun, -⟩ := copyAll_of_takes hblank hall
    exact ⟨y, hrun⟩

end Lineage

/-- **The last source wins.** A clone succeeds just when each further source on its own
can be copied to an instance of the type, whichever that is. Each field of the clone then
holds the conversion of what the last source that has its name has, or else what the
primary instance holds, and hidden slots are those of the default instance. Without
further sources it always succeeds, and is equal to the primary instance where nothing is
hidden. -/
theorem clone_last_source_wins {fields : TypeName → List Field} {i j : Introspector}
    {l : Lineage} {blank primary : Instance} (hi : i.Faithful fields) (hj : j.Faithful fields)
    (hl : fields l.own.type = l.describe) (hblank : blank.Fits l) (hprimary : primary.Fits l)
    (others : List (String → Option Value)) :
    let cloned := (Introspector.cloneFrom l.record blank primary others i).1
    (∀ t : Instance, t.Fits l → ((∃ y, cloned = .ok y) ↔
      ∀ source ∈ others, ∃ z,
        (Introspector.copyFrom l.record .all source t j).1 = (.ok (), z))) ∧
    (∀ y, cloned = .ok y → y.Fits l ∧ y.hidden = blank.hidden ∧
      ∀ name f, l.declared? name = some f →
        (∀ v, lastOffer? others name = some v →
          ∃ w, f.type.store v = .ok w ∧ y.get name = some w) ∧
        (lastOffer? others name = none → y.get name = primary.get name)) ∧
    (others = [] → ∃ y, cloned = .ok y ∧ (l.Unshadowed → y = primary)) := by
  intro cloned
  have hcloned : cloned = l.record.cloneFrom l.record.describe blank primary others :=
    Introspector.looked_of_faithful hi hl fun d => l.record.cloneFrom d blank primary others
  refine ⟨?_, ?_, ?_⟩
  · intro t ht
    rw [hcloned, Lineage.exists_cloneFrom_iff hblank hprimary]
    have hcopy : ∀ source, (Introspector.copyFrom l.record .all source t j).1 =
        l.record.copyFrom l.record.describe .all source t := by
      intro source
      exact Introspector.looked_of_faithful hj hl fun d => l.record.copyFrom d .all source t
    constructor
    · intro h source hsource
      rw [hcopy]
      exact (Lineage.exists_copyFrom_all_iff ht).mpr (h source hsource)
    · intro h source hsource
      apply (Lineage.exists_copyFrom_all_iff ht).mp
      rw [← hcopy]
      exact h source hsource
  · intro y hy
    have hover := ((Lineage.cloneFrom_eq_ok_iff hblank hprimary others).mp (hcloned ▸ hy)).2
    refine ⟨hover.fits, hover.hidden, ?_⟩
    intro name f hf
    constructor
    · intro v hv
      exact hover.stored hf (by rw [hv]; rfl)
    · exact hover.get_eq_of_below hprimary
  · rintro rfl
    obtain ⟨y, hy⟩ := (Lineage.exists_cloneFrom_iff hblank hprimary []).mpr
      fun _ hsource => (List.not_mem_nil hsource).elim
    have hover := ((Lineage.cloneFrom_eq_ok_iff hblank hprimary []).mp hy).2
    refine ⟨y, hcloned.trans hy, ?_⟩
    intro h
    exact hover.fits.ext_of_unshadowed hprimary h fun name => hover.get_eq_of_below hprimary rfl

/-- A gate has a level only. -/
def gate : Instance :=
  [⟨⟨"office::Gate"⟩, [⟨⟨"level", .option (.int .u8), []⟩, .integer 5⟩]⟩]

/-- The title comes from the ticket, which is the last to have one, and the level from
the gate. -/
theorem badge_cloned :
    ∃ y, (Introspector.cloneFrom badge.record badge.blank badge.blank
        [fun name => ticket.get name, fun name => gate.get name] {}).1 = .ok y ∧
      y.get "title" = some (.text "12") ∧ y.get "level" = some (.integer 5) ∧
      y.hidden = badge.blank.hidden := by
  have hfaithful := Introspector.faithful_new fun _ => badge.describe
  obtain ⟨hok, hdone, -⟩ := clone_last_source_wins hfaithful hfaithful rfl badge.blank_fits
    badge.blank_fits [fun name => ticket.get name, fun name => gate.get name]
  have hcopies : ∀ source ∈ [fun name => ticket.get name, fun name => gate.get name],
      (Introspector.copyFrom badge.record .all source badge.blank {}).1.1 = .ok () := by
    intro source hsource
    simp only [List.mem_cons, List.not_mem_nil, or_false] at hsource
    rcases hsource with rfl | rfl <;> decide
  obtain ⟨y, hy⟩ := (hok badge.blank badge.blank_fits).mpr fun source hsource =>
    ⟨_, Prod.ext (hcopies source hsource) rfl⟩
  obtain ⟨-, hhidden, hfields⟩ := hdone y hy
  obtain ⟨title, htitle, hgetTitle⟩ := (hfields "title" ⟨"title", .text, []⟩ (by decide)).1
    (.integer 12) (by decide)
  obtain ⟨level, hlevel, hgetLevel⟩ := (hfields "level" ⟨"level", .int .i8, []⟩ (by decide)).1
    (.integer 5) (by decide)
  cases htitle.symm.trans (show _ = Except.ok (Value.text "12") by decide)
  cases hlevel.symm.trans (show _ = Except.ok (Value.integer 5) by decide)
  exact ⟨y, hy, hgetTitle, hgetLevel, hhidden⟩

end Wiring
