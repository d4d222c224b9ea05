import Wiring.Proofs.Record.Copying
import Wiring.Proofs.Record.Overlays

/-!
# Merging by copies

A copy lays over its target what the source has, where the mode lets it through. What
it lets through depends on the target that it finds. But a field that was passed over
is left as it was and is passed over again, so a second copy finds everything done.
Filling the gaps of one instance from another and laying the first over the second
are the same thing.
-/

namespace Wiring

/-- What a copy lays over a target: what the source has, where the mode lets it through. -/
def CopyMode.offers (mode : CopyMode) (source : String → Option Value) (x : Instance) :
    String → Option Value :=
  fun name => (source name).filter fun v => mode.accepts v ((x.get name).getD .null)

section Offers

variable {mode : CopyMode} {source : String → Option Value} {x y : Instance} {name : String}
  {v : Value}

theorem CopyMode.offers_eq_some_iff : mode.offers source x name = some v ↔
    source name = some v ∧ mode.accepts v ((x.get name).getD .null) = true := by
  rw [offers, Option.filter_eq_some_iff]

theorem CopyMode.offers_eq_none (hv : source name = some v)
    (h : mode.accepts v ((x.get name).getD .null) = false) : mode.offers source x name = none := by
  rw [offers, hv]
  exact Option.filter_some_neg (by simp [h])

theorem CopyMode.offers_all (source : String → Option Value) (x : Instance) :
    CopyMode.all.offers source x = source := by
  funext name
  cases h : source name with
  | none => rw [offers, h, Option.filter_none]
  | some v => exact offers_eq_some_iff.mpr ⟨h, rfl⟩

/-- What is offered to the outcome of a copy was offered before: a field that was passed
over is unchanged, so it is passed over again. -/
theorem CopyMode.offered_before {l : Lineage} (h : x.Overlaid l (mode.offers source x) y)
    (hv : mode.offers source y name = some v) : mode.offers source x name = some v := by
  obtain ⟨hsource, haccepts⟩ := offers_eq_some_iff.mp hv
  apply offers_eq_some_iff.mpr
  refine ⟨hsource, ?_⟩
  by_contra hpassed
  have hnone : mode.offers source x name = none :=
    offers_eq_none hsource (Bool.eq_false_iff.mpr hpassed)
  rw [h.kept hnone] at haccepts
  exact hpassed haccepts

end Offers

namespace Lineage

variable {l : Lineage} {mode : CopyMode} {source : String → Option Value} {x y : Instance}
  {name : String} {v : Value}

theorem mem_taken_iff_offers {fields : List Field} {f : Field} :
    (f, v) ∈ l.record.taken mode source x fields ↔
      f ∈ fields ∧ mode.offers source x f.name = some v := by
  rw [Record.taken, List.mem_filterMap]
  constructor
  · rintro ⟨g, hg, hpair⟩
    split at hpair
    · cases hpair
    · rename_i u hu
      split at hpair
      · rename_i haccepts
        cases hpair
        exact ⟨hg, CopyMode.offers_eq_some_iff.mpr ⟨hu, haccepts⟩⟩
      · cases hpair
  · rintro ⟨hf, hoffers⟩
    obtain ⟨hsource, haccepts⟩ := CopyMode.offers_eq_some_iff.mp hoffers
    refine ⟨f, hf, ?_⟩
    rw [hsource]
    exact if_pos haccepts

/-! ## Copies as overlays -/

theorem allAccepted_of_takes (h : l.Takes (mode.offers source x)) :
    AllAccepted FieldType.store (l.record.taken mode source x l.record.describe.accessible) := by
  intro p hp
  obtain ⟨f, v⟩ := p
  obtain ⟨hf, hoffers⟩ := mem_taken_iff_offers.mp hp
  obtain ⟨d, hd, htype⟩ := declared?_of_mem_accessible hf
  obtain ⟨w, hw⟩ := h f.name d v hd hoffers
  rw [htype] at hw
  exact ⟨w, hw⟩

theorem overlaid_of_overwritten (hy : y.Fits l)
    (h : x.Overwritten (l.record.taken mode source x l.record.describe.accessible) y) :
    x.Overlaid l (mode.offers source x) y where
  fits := hy
  stored {name d v} hd hv := by
    obtain ⟨f, hf, rfl, htype⟩ := exists_accessible hd
    rw [← htype]
    exact h.values (f, v) (mem_taken_iff_offers.mpr ⟨hf, hv⟩)
  kept {name} hnone := by
    apply h.others
    rintro ⟨f, v⟩ hp rfl
    obtain ⟨-, hoffers⟩ := mem_taken_iff_offers.mp hp
    rw [hnone] at hoffers
    cases hoffers
  hidden := h.hidden

theorem copyFrom_of_takes (hx : x.Fits l) (h : l.Takes (mode.offers source x)) :
    ∃ y, l.record.copyFrom l.record.describe mode source x = (.ok (), y) ∧
      x.Overlaid l (mode.offers source x) y := by
  have hall := allAccepted_of_takes h
  rcases copyFrom_cases hx mode source with ⟨y, hrun, -, hy, hover⟩ | ⟨f, e, -, hfirst⟩
  · exact ⟨y, hrun, overlaid_of_overwritten hy hover⟩
  · rcases hfirst with hfirst | ⟨-, hfirst⟩
    · exact (hfirst.not_allAccepted hall.coerce).elim
    · exact (hfirst.not_allAccepted hall).elim

/-- **A copy is an overlay** of what it offers. -/
theorem copyFrom_eq_ok_iff (hx : x.Fits l) :
    l.record.copyFrom l.record.describe mode source x = (.ok (), y) ↔
      x.Overlaid l (mode.offers source x) y := by
  constructor
  · intro h
    rcases copyFrom_cases hx mode source with ⟨z, hrun, -, hz, hover⟩ | ⟨f, e, hrun, -⟩
    · rw [hrun] at h
      cases h
      exact overlaid_of_overwritten hz hover
    · rw [hrun] at h
      cases h
  · intro hover
    obtain ⟨z, hrun, hover'⟩ := copyFrom_of_takes hx hover.takes
    rw [hrun, hover.unique hover']

theorem exists_copyFrom_iff (hx : x.Fits l) :
    (∃ y, l.record.copyFrom l.record.describe mode source x = (.ok (), y)) ↔
      l.Takes (mode.offers source x) := by
  constructor
  · rintro ⟨y, hrun⟩
    exact ((copyFrom_eq_ok_iff hx).mp hrun).takes
  · intro h
    obtain ⟨y, hrun, -⟩ := copyFrom_of_takes hx h
    exact ⟨y, hrun⟩

/-! ## The laws -/

theorem copyFrom_again (hx : x.Fits l)
    (h : l.record.copyFrom l.record.describe mode source x = (.ok (), y)) :
    l.record.copyFrom l.record.describe mode source y = (.ok (), y) := by
  have hover := (copyFrom_eq_ok_iff hx).mp h
  apply (copyFrom_eq_ok_iff hover.fits).mpr
  exact hover.again fun name v => CopyMode.offered_before hover

end Lineage

namespace Instance

/-- Whatever the mode lets through of an instance, every other one of the type takes. -/
theorem Fits.takes_offers {l : Lineage} {x : Instance} (hx : x.Fits l) (mode : CopyMode)
    (y : Instance) : l.Takes (mode.offers (fun name => x.get name) y) :=
  hx.takes.mono fun _ _ hv => (CopyMode.offers_eq_some_iff.mp hv).1

variable {l : Lineage} {mode : CopyMode} {s t x y z : Instance} {name : String} {u v : Value}

/-- After a copy from an instance of the same type a field holds the other's value if it
was let through, and else its own. -/
theorem Overlaid.get_offered (hs : s.Fits l)
    (h : x.Overlaid l (mode.offers (fun name => s.get name) x) y) (hv : s.get name = some v)
    (hu : x.get name = some u) : y.get name = if mode.accepts v u then some v else some u := by
  by_cases haccepts : mode.accepts v u = true
  · rw [if_pos haccepts]
    apply h.get_eq hs _ hv
    apply CopyMode.offers_eq_some_iff.mpr
    rw [hu]
    exact ⟨hv, haccepts⟩
  · rw [if_neg haccepts, ← hu]
    apply h.kept
    apply CopyMode.offers_eq_none hv
    rw [hu]
    exact Bool.eq_false_iff.mpr haccepts

/-- Filling the gaps of `t` from `s` and laying `t` over `s` look the same. -/
theorem get_filled_eq_get_covered (hs : s.Fits l) (ht : t.Fits l)
    (hy : t.Overlaid l (CopyMode.isNull.offers (fun name => s.get name) t) y)
    (hz : s.Overlaid l (CopyMode.notNull.offers (fun name => t.get name) s) z) (name : String) :
    y.get name = z.get name := by
  cases hf : l.declared? name with
  | none => rw [hy.fits.get_undeclared hf, hz.fits.get_undeclared hf]
  | some f =>
    obtain ⟨v, hv⟩ := hs.exists_get hf
    obtain ⟨u, hu⟩ := ht.exists_get hf
    rw [hy.get_offered hs hv hu, hz.get_offered ht hu hv, CopyMode.accepts, CopyMode.accepts]
    cases u.isNull <;> rfl

end Instance

/-- **Merging by copies.** A copy of any mode that succeeds succeeds again and then
changes nothing. Between instances of one type a copy never fails, and to fill the gaps of
one from the other looks the same as to lay the first one over the second: they agree
under every name, and are equal where nothing is hidden. -/
theorem copies_merge {fields : TypeName → List Field} {i j : Introspector} {l : Lineage}
    (hi : i.Faithful fields) (hj : j.Faithful fields) (hl : fields l.own.type = l.describe) :
    (∀ mode source x y, x.Fits l →
      (Introspector.copyFrom l.record mode source x i).1 = (.ok (), y) →
      (Introspector.copyFrom l.record mode source y j).1 = (.ok (), y)) ∧
    (∀ s t : Instance, s.Fits l → t.Fits l → ∃ filled covered,
      (Introspector.copyFrom l.record .isNull (fun name => s.get name) t i).1 =
        (.ok (), filled) ∧
      (Introspector.copyFrom l.record .notNull (fun name => t.get name) s j).1 =
        (.ok (), covered) ∧
      (∀ name, filled.get name = covered.get name) ∧
      (l.Unshadowed → filled = covered)) := by
  have hcopy : ∀ {k : Introspector}, k.Faithful fields → ∀ mode source x,
      (Introspector.copyFrom l.record mode source x k).1 =
        l.record.copyFrom l.record.describe mode source x := by
    intro k hk mode source x
    exact Introspector.looked_of_faithful hk hl fun d => l.record.copyFrom d mode source x
  constructor
  · intro mode source x y hx h
    rw [hcopy hi] at h
    rw [hcopy hj]
    exact Lineage.copyFrom_again hx h
  · intro s t hs ht
    obtain ⟨filled, hfilled, hy⟩ := Lineage.copyFrom_of_takes ht (hs.takes_offers .isNull t)
    obtain ⟨covered, hcovered, hz⟩ := Lineage.copyFrom_of_takes hs (ht.takes_offers .notNull s)
    have hget := Instance.get_filled_eq_get_covered hs ht hy hz
    refine ⟨filled, covered, ?_, ?_, hget, ?_⟩
    · rw [hcopy hi, hfilled]
    · rw [hcopy hj, hcovered]
    · intro h
      exact hy.fits.ext_of_unshadowed hz.fits h hget

def contact : Lineage where
  own := ⟨⟨"office::Contact"⟩,
    [⟨"name", .text, []⟩, ⟨"phone", .option .text, []⟩, ⟨"floor", .option (.int .u8), []⟩]⟩
  ancestors := []

def contactOf (name : String) (phone floor : Value) : Instance :=
  [⟨contact.own.type, [⟨⟨"name", .text, []⟩, .text name⟩, ⟨⟨"phone", .option .text, []⟩, phone⟩,
    ⟨⟨"floor", .option (.int .u8), []⟩, floor⟩]⟩]

/-- Each of two contacts lacks what the other one has. -/
theorem contacts_merged :
    let guest := contactOf "guest" (.text "12") .null
    let host := contactOf "host" .null (.integer 3)
    let merged := contactOf "guest" (.text "12") (.integer 3)
    (Introspector.copyFrom contact.record .isNull (fun name => host.get name) guest {}).1 =
        (.ok (), merged) ∧
      (Introspector.copyFrom contact.record .notNull (fun name => guest.get name) host {}).1 =
        (.ok (), merged) ∧
      (Introspector.copyFrom contact.record .isNull (fun name => host.get name) merged {}).1 =
        (.ok (), merged) := by
  intro guest host merged
  have hfaithful := Introspector.faithful_new fun _ => contact.describe
  obtain ⟨hagain, hmerge⟩ := copies_merge hfaithful hfaithful (l := contact) rfl
  have hguest : guest.Fits contact := by decide
  have hhost : host.Fits contact := by decide
  obtain ⟨filled, covered, hfilled, hcovered, -, heq⟩ := hmerge host guest hhost hguest
  have hrun : (Introspector.copyFrom contact.record .isNull (fun name => host.get name)
      guest {}).1 = (.ok (), merged) := by
    decide
  have hmerged : filled = merged := congrArg Prod.snd (hfilled.symm.trans hrun)
  rw [← heq (by decide), hmerged] at hcovered
  exact ⟨hrun, hcovered, hagain _ _ _ _ hguest hrun⟩

end Wiring
