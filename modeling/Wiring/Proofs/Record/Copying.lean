import Wiring.Proofs.Record.Remembering
import Wiring.Proofs.Record.Rollback

/-!
# What a copy does

The fields that a copy takes over are known before it starts. They are staged in
order, which fails at the first that cannot be coerced, and then written in
order, which fails at the first that its type cannot store. Since a coerced value
is stored like the original, a copy stores in each field what the source has.
-/

namespace Wiring

/-! ## The first failure of a list -/

/-- All values are accepted by the types of their fields. -/
def AllAccepted (accept : FieldType → Value → Except CoercionError Value)
    (pairs : List (Field × Value)) : Prop :=
  ∀ p ∈ pairs, ∃ w, accept p.1.type p.2 = .ok w

/-- The first value that its field refuses, and why. -/
def RefusedFirst (accept : FieldType → Value → Except CoercionError Value)
    (pairs : List (Field × Value)) (f : Field) (e : CoercionError) : Prop :=
  ∃ before v after, pairs = before ++ (f, v) :: after ∧ AllAccepted accept before ∧
    accept f.type v = .error e

section Failures

variable {accept : FieldType → Value → Except CoercionError Value} {pairs : List (Field × Value)}
  {f : Field} {v w : Value} {e : CoercionError}

theorem allAccepted_nil : AllAccepted accept [] :=
  fun _ hp => (List.not_mem_nil hp).elim

theorem AllAccepted.cons (hw : accept f.type v = .ok w) (h : AllAccepted accept pairs) :
    AllAccepted accept ((f, v) :: pairs) := by
  intro p hp
  rcases List.mem_cons.mp hp with rfl | hp
  · exact ⟨w, hw⟩
  · exact h p hp

theorem RefusedFirst.head (he : accept f.type v = .error e) :
    RefusedFirst accept ((f, v) :: pairs) f e :=
  ⟨[], v, pairs, rfl, allAccepted_nil, he⟩

theorem RefusedFirst.cons {g : Field} (hw : accept g.type v = .ok w)
    (h : RefusedFirst accept pairs f e) : RefusedFirst accept ((g, v) :: pairs) f e := by
  obtain ⟨before, u, after, rfl, hbefore, he⟩ := h
  exact ⟨(g, v) :: before, u, after, rfl, hbefore.cons hw, he⟩

theorem RefusedFirst.not_allAccepted (h : RefusedFirst accept pairs f e) :
    ¬ AllAccepted accept pairs := by
  intro hall
  obtain ⟨before, v, after, rfl, -, he⟩ := h
  obtain ⟨w, hw⟩ := hall (f, v) (List.mem_append_right _ (List.mem_cons_self ..))
  rw [he] at hw
  cases hw

end Failures

/-- Values that can be stored can be coerced. -/
theorem AllAccepted.coerce {pairs : List (Field × Value)}
    (h : AllAccepted FieldType.store pairs) : AllAccepted FieldType.coerce pairs := by
  intro p hp
  obtain ⟨w, hw⟩ := h p hp
  cases hu : p.1.type.coerce p.2 with
  | error e =>
    rw [FieldType.store_of_coerce_error hu] at hw
    cases hw
  | ok u => exact ⟨u, rfl⟩

namespace Record

variable {σ : Type} {r : Record σ} {d : Descriptor}

/-! ## Staging -/

/-- The fields that a copy takes over, in order, with what the source has. -/
def taken (r : Record σ) (mode : CopyMode) (source : String → Option Value) (target : σ)
    (fields : List Field) : List (Field × Value) :=
  fields.filterMap fun f =>
    match source f.name with
    | none => none
    | some v =>
      if mode.accepts v ((r.get target f.name).getD .null) then some (f, v) else none

theorem mem_taken_iff {mode : CopyMode} {source : String → Option Value} {target : σ}
    {fields : List Field} {f : Field} {v : Value} :
    (f, v) ∈ r.taken mode source target fields ↔ f ∈ fields ∧ source f.name = some v ∧
      match mode with
      | .all => True
      | .notNull => v ≠ .null
      | .isNull => (r.get target f.name).getD .null = .null := by
  rw [taken, List.mem_filterMap]
  constructor
  · rintro ⟨g, hg, hpair⟩
    split at hpair
    · cases hpair
    · rename_i u hu
      split at hpair
      · rename_i haccepts
        cases hpair
        refine ⟨hg, hu, ?_⟩
        cases mode with
        | all => trivial
        | notNull =>
          intro hnull
          simp [CopyMode.accepts, Value.isNull_iff.mpr hnull] at haccepts
        | isNull => exact Value.isNull_iff.mp haccepts
      · cases hpair
  · rintro ⟨hf, hsource, hmode⟩
    refine ⟨f, hf, ?_⟩
    have haccepts : mode.accepts v ((r.get target f.name).getD .null) = true := by
      cases mode with
      | all => rfl
      | notNull => simpa [CopyMode.accepts, ← Value.isNull_iff] using hmode
      | isNull => exact Value.isNull_iff.mpr hmode
    simp only [hsource, haccepts, if_true]

theorem taken_sublist (mode : CopyMode) (source : String → Option Value) (target : σ)
    (fields : List Field) :
    ((r.taken mode source target fields).map (·.1)).Sublist fields := by
  induction fields with
  | nil => exact List.Sublist.refl _
  | cons f rest ih =>
    rw [taken, List.filterMap_cons]
    split
    · exact ih.cons f
    · rename_i p hp
      split at hp
      · cases hp
      · split at hp
        · cases hp
          exact ih.cons_cons f
        · cases hp

/-- The entry that stages a pair: the value is coerced already. -/
def Stages (p : Field × Value) (s : Staged) : Prop :=
  s.name = p.1.name ∧ p.1.type.coerce p.2 = .ok s.value

/-- Staging either coerces all that is taken over or ends at the first that it cannot. -/
theorem stage_cases (mode : CopyMode) (source : String → Option Value) (target : σ)
    (fields : List Field) :
    (∃ staged, r.stage mode source target fields = .ok staged ∧
      List.Forall₂ Stages (r.taken mode source target fields) staged) ∨
    (∃ f e, r.stage mode source target fields = .error (.coercion r.type f.name e) ∧
      RefusedFirst FieldType.coerce (r.taken mode source target fields) f e) := by
  induction fields with
  | nil => exact .inl ⟨[], rfl, .nil⟩
  | cons f rest ih =>
    simp only [stage, taken, List.filterMap_cons]
    cases source f.name with
    | none => exact ih
    | some v =>
      dsimp only
      cases mode.accepts v ((r.get target f.name).getD .null) with
      | false => exact ih
      | true =>
        simp only [if_true]
        cases hw : f.type.coerce v with
        | error e => exact .inr ⟨f, e, rfl, .head hw⟩
        | ok w =>
          rcases ih with ⟨staged, hstage, hall⟩ | ⟨g, e, hstage, hfirst⟩
          · rw [hstage]
            exact .inl ⟨_, rfl, .cons ⟨rfl, hw⟩ hall⟩
          · rw [hstage]
            exact .inr ⟨g, e, rfl, hfirst.cons hw⟩

theorem allAccepted_of_stages {pairs : List (Field × Value)} {staged : List Staged}
    (h : List.Forall₂ Stages pairs staged) : AllAccepted FieldType.coerce pairs := by
  induction h with
  | nil => exact allAccepted_nil
  | cons hstages _ ih => exact ih.cons hstages.2

end Record

/-! ## Writing -/

/-- Each pair is stored in its field, and no other field has changed. -/
structure Instance.Overwritten (x : Instance) (pairs : List (Field × Value)) (y : Instance) :
    Prop where
  values : ∀ p ∈ pairs, ∃ w, p.1.type.store p.2 = .ok w ∧ y.get p.1.name = some w
  others : ∀ name, (∀ p ∈ pairs, p.1.name ≠ name) → y.get name = x.get name
  hidden : y.hidden = x.hidden

namespace Lineage

variable {l : Lineage} {x y : Instance} {f : Field} {v w : Value} {pairs : List (Field × Value)}
  {written staged : List Staged}

/-- A write to an accessible field stores the value by the field's type. -/
theorem setValue_stored (hx : x.Fits l) (hf : f ∈ l.record.describe.accessible)
    (hw : f.type.store v = .ok w) :
    ∃ y, l.record.setValue l.record.describe x f.name v = .ok y ∧ y.Fits l ∧
      x.Written f.name w y := by
  obtain ⟨decl, hdecl, htype⟩ := declared?_of_mem_accessible hf
  rw [← htype] at hw
  obtain ⟨y, hset, hy, hwritten⟩ := hx.set_stored hdecl hw
  refine ⟨y, ?_, hy, hwritten⟩
  rw [Record.setValue, Descriptor.contains_of_mem_accessible hf, if_pos rfl,
    show l.record.set x f.name v = some (.ok y) from hset]

theorem setValue_refused (hx : x.Fits l) (hf : f ∈ l.record.describe.accessible)
    {e : CoercionError} (he : f.type.store v = .error e) :
    l.record.setValue l.record.describe x f.name v =
      .error (.coercion l.own.type f.name e) := by
  obtain ⟨decl, hdecl, htype⟩ := declared?_of_mem_accessible hf
  rw [← htype] at he
  rw [Record.setValue, Descriptor.contains_of_mem_accessible hf, if_pos rfl,
    show l.record.set x f.name v = some (.error e) from hx.set_refused hdecl he]
  rfl

theorem overwritten_nil (x : Instance) : x.Overwritten [] x :=
  ⟨fun _ hp => (List.not_mem_nil hp).elim, fun _ _ => rfl, rfl⟩

/-- One write in front of others, to other names. -/
theorem overwritten_cons {z : Instance} (hw : f.type.store v = .ok w)
    (hfirst : x.Written f.name w y) (hrest : y.Overwritten pairs z)
    (hname : ∀ p ∈ pairs, p.1.name ≠ f.name) : x.Overwritten ((f, v) :: pairs) z := by
  refine ⟨?_, ?_, ?_⟩
  · intro p hp
    rcases List.mem_cons.mp hp with rfl | hp
    · exact ⟨w, hw, by rw [hrest.others f.name hname, hfirst.value]⟩
    · exact hrest.values p hp
  · intro name hne
    rw [hrest.others name fun p hp => hne p (List.mem_cons_of_mem _ hp)]
    exact hfirst.others name (hne (f, v) (List.mem_cons_self ..)).symm
  · rw [hrest.hidden, hfirst.hidden]

/-- Writing what is staged either stores all pairs or ends at the first that is refused. -/
theorem write_cases (hx : x.Fits l) (hall : List.Forall₂ Record.Stages pairs staged)
    (hreach : ∀ p ∈ pairs, p.1 ∈ l.record.describe.accessible)
    (hnames : (pairs.map fun p => p.1.name).Nodup) :
    (∃ y, l.record.write l.record.describe x written staged = (.ok (), y) ∧ y.Fits l ∧
      x.Overwritten pairs y) ∨
    (∃ f e y, l.record.write l.record.describe x written staged =
        (.error (.coercion l.own.type f.name e), y) ∧
      RefusedFirst FieldType.store pairs f e) := by
  induction hall generalizing x written with
  | nil => exact .inl ⟨x, rfl, hx, overwritten_nil x⟩
  | @cons p s pairs staged hstages _ ih =>
    obtain ⟨f, v⟩ := p
    obtain ⟨hname, hcoerce⟩ := hstages
    have hf := hreach (f, v) (List.mem_cons_self ..)
    -- What is written was coerced already, which makes no difference to what is stored.
    have hstore : f.type.store v = f.type.store s.value := FieldType.store_of_coerce hcoerce
    rw [List.map_cons, List.nodup_cons] at hnames
    rw [Record.write, hname]
    cases hw : f.type.store v with
    | error e =>
      rw [hstore] at hw
      rw [setValue_refused hx hf hw]
      exact .inr ⟨f, e, _, rfl, .head (hstore.trans hw)⟩
    | ok w =>
      have hw' := hw
      rw [hstore] at hw'
      obtain ⟨y, hset, hy, hwritten⟩ := setValue_stored hx hf hw'
      rw [hset]
      rcases ih hy (fun p hp => hreach p (List.mem_cons_of_mem _ hp)) hnames.2 with
        ⟨z, hz, hfits, hover⟩ | ⟨g, e, z, hz, hfirst⟩
      · refine .inl ⟨z, hz, hfits, overwritten_cons hw hwritten hover ?_⟩
        intro p hp heq
        exact hnames.1 (heq ▸ List.mem_map_of_mem (f := fun p => p.1.name) hp)
      · exact .inr ⟨g, e, z, hz, hfirst.cons hw⟩

/-! ## Copying -/

theorem names_taken_nodup (l : Lineage) (mode : CopyMode) (source : String → Option Value)
    (x : Instance) :
    ((l.record.taken mode source x l.record.describe.accessible).map fun p => p.1.name).Nodup := by
  have hsublist := (Record.taken_sublist (r := l.record) mode source x
    l.record.describe.accessible).map (·.name)
  rw [List.map_map] at hsublist
  exact hsublist.nodup (Descriptor.nodup_accessible _)

theorem copyFrom_cases (hx : x.Fits l) (mode : CopyMode) (source : String → Option Value) :
    let pairs := l.record.taken mode source x l.record.describe.accessible
    (∃ y, l.record.copyFrom l.record.describe mode source x = (.ok (), y) ∧
      AllAccepted FieldType.store pairs ∧ y.Fits l ∧ x.Overwritten pairs y) ∨
    (∃ f e, l.record.copyFrom l.record.describe mode source x =
        (.error (.coercion l.own.type f.name e), x) ∧
      (RefusedFirst FieldType.coerce pairs f e ∨
        AllAccepted FieldType.coerce pairs ∧ RefusedFirst FieldType.store pairs f e)) := by
  intro pairs
  have hreach : ∀ p ∈ pairs, p.1 ∈ l.record.describe.accessible :=
    fun p hp => (Record.mem_taken_iff.mp hp).1
  rcases Record.stage_cases (r := l.record) mode source x l.record.describe.accessible with
    ⟨staged, hstage, hall⟩ | ⟨f, e, hstage, hfirst⟩
  · have hcopy : l.record.copyFrom l.record.describe mode source x =
        l.record.write l.record.describe x [] staged := by
      rw [Record.copyFrom, hstage]
    rcases write_cases hx hall hreach (names_taken_nodup l mode source x) with
      ⟨y, hwrite, hy, hover⟩ | ⟨f, e, y, hwrite, hfirst⟩
    · exact .inl ⟨y, hcopy.trans hwrite, fun p hp => (hover.values p hp).imp fun _ h => h.1,
        hy, hover⟩
    · have hfail := hcopy.trans hwrite
      rw [copyFrom_error_eq l.describe hx hfail] at hfail
      exact .inr ⟨f, e, hfail, .inr ⟨Record.allAccepted_of_stages hall, hfirst⟩⟩
  · rw [Record.copyFrom, hstage]
    exact .inr ⟨f, e, rfl, .inl hfirst⟩

end Lineage

/-- **What a copy does.** The fields taken over are the accessible ones that the source
has too and that the mode lets through on the values before the copy. It succeeds just
when their types can store what the source has; then each holds that value as stored,
and nothing else has changed, hidden slots included. Otherwise nothing has changed at
all, and the error names the first of the fields that cannot be coerced or, when all can,
the first that cannot be stored. -/
theorem copy_spec {fields : TypeName → List Field} {i : Introspector} {l : Lineage}
    {target : Instance} (mode : CopyMode) (source : String → Option Value)
    (hi : i.Faithful fields) (hl : fields l.own.type = l.describe) (ht : target.Fits l) :
    let pairs := l.record.taken mode source target l.record.describe.accessible
    ∃ result y, (Introspector.copyFrom l.record mode source target i).1 = (result, y) ∧
      (result = .ok () ↔ AllAccepted FieldType.store pairs) ∧
      (result = .ok () → y.Fits l ∧ target.Overwritten pairs y) ∧
      ∀ e, result = .error e → y = target ∧
        ∃ f why, e = .coercion l.own.type f.name why ∧
          (RefusedFirst FieldType.coerce pairs f why ∨
            AllAccepted FieldType.coerce pairs ∧ RefusedFirst FieldType.store pairs f why) := by
  intro pairs
  have hcontent : (Introspector.descriptor l.record i).1.content = l.record.describe :=
    Introspector.descriptor_content hi hl
  have hcopy : (Introspector.copyFrom l.record mode source target i).1 =
      l.record.copyFrom l.record.describe mode source target := by
    rw [← hcontent]
    rfl
  rw [hcopy]
  rcases Lineage.copyFrom_cases ht mode source with
    ⟨y, hrun, hall, hy, hover⟩ | ⟨f, why, hrun, hfirst⟩
  · refine ⟨.ok (), y, hrun, iff_of_true rfl hall, fun _ => ⟨hy, hover⟩, ?_⟩
    intro e he
    cases he
  · have hrefused : ¬ AllAccepted FieldType.store pairs := by
      intro hall
      rcases hfirst with hfirst | ⟨-, hfirst⟩
      · exact hfirst.not_allAccepted hall.coerce
      · exact hfirst.not_allAccepted hall
    refine ⟨.error (.coercion l.own.type f.name why), target, hrun,
      iff_of_false (by rintro ⟨⟩) hrefused, by rintro ⟨⟩, ?_⟩
    intro e he
    cases he
    exact ⟨rfl, f, why, rfl, hfirst⟩

/-- A ticket has the names of a badge's own fields, with other types. -/
def ticket : Instance :=
  [⟨⟨"office::Ticket"⟩,
    [⟨⟨"level", .text, []⟩, .text " 7 "⟩, ⟨⟨"title", .int .i64, []⟩, .integer 12⟩]⟩]

theorem ticket_copied_to_badge :
    ∃ y, (Introspector.copyFrom badge.record .notNull (fun name => ticket.get name)
        badge.blank {}).1 = (.ok (), y) ∧
      y.get "title" = some (.text "12") ∧ y.get "level" = some (.integer 7) ∧
      y.hidden = badge.blank.hidden := by
  have htaken : badge.record.taken .notNull (fun name => ticket.get name) badge.blank
      badge.record.describe.accessible =
        [(⟨"title", badge.own.type, .text, []⟩, .integer 12),
          (⟨"level", badge.own.type, .int .i8, []⟩, .text " 7 ")] := by
    decide
  have hstore : AllAccepted FieldType.store
      (badge.record.taken .notNull (fun name => ticket.get name) badge.blank
        badge.record.describe.accessible) := by
    rw [htaken]
    exact .cons (w := .text "12") (by decide)
      (.cons (w := .integer 7) (by decide) allAccepted_nil)
  obtain ⟨result, y, hrun, hok, hdone, -⟩ := copy_spec .notNull (fun name => ticket.get name)
    (Introspector.faithful_new fun _ => badge.describe) rfl badge.blank_fits
  obtain ⟨-, hover⟩ := hdone (hok.mpr hstore)
  rw [hok.mpr hstore] at hrun
  rw [htaken] at hover
  obtain ⟨title, htitle, hgetTitle⟩ := hover.values _ (List.mem_cons_self ..)
  obtain ⟨level, hlevel, hgetLevel⟩ :=
    hover.values _ (List.mem_cons_of_mem _ (List.mem_cons_self ..))
  cases htitle.symm.trans (show _ = Except.ok (Value.text "12") by decide)
  cases hlevel.symm.trans (show _ = Except.ok (Value.integer 7) by decide)
  exact ⟨y, hrun, hgetTitle, hgetLevel, hover.hidden⟩

end Wiring
