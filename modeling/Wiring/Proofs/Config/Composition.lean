import Wiring.Proofs.Config.Aliases

/-!
# Texts put together, and escaped texts

Tokens are read with one character of lookahead, so a token depends on what follows it
only where it is a dollar sign at the very end of a text. A text that ends otherwise is
complete: what follows is expanded as if it stood alone. A text with every dollar sign
doubled is complete and expands to the text, whatever the table.

* `expand_append` — a complete text is expanded on its own.
* `complete_of_scans` — what lies before a token boundary is complete.
* `expansion_is_compositional` — both, and what follows for escaped texts.
-/

namespace Wiring.Config

open Wiring.Text Wiring.Toml

/-! ## Complete texts -/

/-- `Scans s rest`: reading `s` token by token one comes to `rest`. -/
inductive Scans : List Char → List Char → Prop
  | refl (s : List Char) : Scans s s
  | token {s rest tail : List Char} {k : Token} (h : Reads s k rest) (later : Scans rest tail) :
      Scans s tail

/-- The text is made of tokens, and the last of them is not a dollar sign alone, so they
are read as they are whatever follows. -/
inductive Complete : List Char → Prop
  | nil : Complete []
  | token {s rest : List Char} {k : Token} (h : Reads s k rest) (other : s ≠ ['$'])
      (later : Complete rest) : Complete s

section

variable {s rest tail pre : List Char} {k : Token}

theorem not_scans_nil (h : tail ≠ []) : ¬ Scans [] tail := by
  intro hscans
  cases hscans with
  | refl => exact h rfl
  | token hreads => exact not_reads_nil hreads

theorem Complete.scans (h : Complete s) : Scans s [] := by
  induction h with
  | nil => exact .refl []
  | token h _ _ ih => exact .token h ih

theorem Complete.not_scans_lone (h : Complete s) : ¬ Scans s ['$'] := by
  induction h with
  | nil => exact not_scans_nil (List.cons_ne_nil _ _)
  | token h other _ ih =>
    intro hscans
    cases hscans with
    | refl => exact other rfl
    | token h' later =>
      obtain ⟨-, rfl⟩ := h.unique h'
      exact ih later

theorem complete_iff : Complete s ↔ Scans s [] ∧ ¬ Scans s ['$'] := by
  constructor
  · intro h
    exact ⟨h.scans, h.not_scans_lone⟩
  · rintro ⟨hscans, hlone⟩
    generalize hend : ([] : List Char) = tail at hscans
    induction hscans with
    | refl => exact hend ▸ .nil
    | token h _ ih =>
      refine .token h ?_ (ih (fun hlater => hlone (.token h hlater)) hend)
      rintro rfl
      exact hlone (.refl _)

/-! ## What follows -/

/-- A token that is no lone dollar sign is read whatever follows. -/
theorem Reads.append (h : Reads s k rest) (other : s ≠ ['$']) (post : List Char) :
    Reads (s ++ post) k (rest ++ post) := by
  cases h with
  | escaped => exact .escaped _
  | ordinary c _ alone =>
    refine .ordinary c _ fun hc d hd => ?_
    cases rest with
    | nil => exact absurd (by rw [hc]) other
    | cons e rest => exact alone hc d hd
  | reference r _ colon brace =>
    have h := Reads.reference r (rest ++ post) colon brace
    simpa using h

/-- What is read before a dollar sign is read without it, and is no lone dollar sign. -/
theorem Reads.of_append (h : Reads (pre ++ '$' :: tail) k (rest ++ '$' :: tail)) :
    Reads pre k rest ∧ pre ≠ ['$'] := by
  generalize hwhole : pre ++ '$' :: tail = whole at h
  generalize hleft : rest ++ '$' :: tail = left at h
  cases h with
  | escaped =>
    rw [← hleft, ← List.cons_append, ← List.cons_append, List.append_cancel_right_eq] at hwhole
    subst hwhole
    exact ⟨.escaped rest, by simp⟩
  | ordinary c _ alone =>
    rw [← hleft, ← List.cons_append, List.append_cancel_right_eq] at hwhole
    subst hwhole
    rw [← hleft] at alone
    cases rest with
    | nil =>
      have hc : c ≠ '$' := fun hc => (alone hc '$' rfl).1 rfl
      exact ⟨.ordinary c [] fun h => absurd h hc, by simpa using hc⟩
    | cons d rest => exact ⟨.ordinary c _ alone, by simp⟩
  | reference r _ colon brace =>
    have hsame : pre ++ '$' :: tail =
        '$' :: '\x7b' :: (r.body ++ '\x7d' :: rest) ++ '$' :: tail := by
      rw [hwhole, ← hleft]
      simp
    rw [List.append_cancel_right hsame]
    exact ⟨.reference r rest colon brace, by simp⟩

theorem Reads.isSuffix (h : Reads s k rest) : rest <:+ s := by
  cases h with
  | escaped => exact ⟨['$', '$'], rfl⟩
  | ordinary c => exact ⟨[c], rfl⟩
  | reference r => exact ⟨'$' :: '\x7b' :: (r.body ++ ['\x7d']), by simp⟩

theorem Scans.isSuffix (h : Scans s tail) : tail <:+ s := by
  induction h with
  | refl => exact List.suffix_rfl
  | token h _ ih => exact ih.trans h.isSuffix

/-- What lies before a token boundary with a dollar sign behind it is complete. -/
theorem complete_of_scans (h : Scans (pre ++ '$' :: tail) ('$' :: tail)) : Complete pre := by
  generalize hwhole : pre ++ '$' :: tail = whole at h
  generalize hleft : '$' :: tail = left at h
  induction h generalizing pre with
  | refl s =>
    rw [← hleft, List.append_left_eq_self] at hwhole
    exact hwhole ▸ .nil
  | token h later ih =>
    subst hwhole hleft
    obtain ⟨rest, rfl⟩ := later.isSuffix
    obtain ⟨hreads, other⟩ := h.of_append
    exact .token hreads other (ih rfl rfl)

end

section

variable {root : Table} {stack : List String} {s pre post out front : List Char}

/-- **A complete text is expanded on its own,** and what follows on its own after it. -/
theorem expand_append (h : Complete pre) (post : List Char) :
    expand root stack (pre ++ post) = (expand root stack pre).bind fun front =>
      (expand root stack post).map (front ++ ·) := by
  induction h with
  | nil =>
    rw [List.nil_append, expand_nil]
    cases expand root stack post <;> rfl
  | @token s rest k h other _ ih =>
    have happend := h.append other post
    cases k with
    | char c =>
      rw [expand_char root stack happend, ih, expand_char root stack h]
      cases expand root stack rest <;> cases expand root stack post <;> rfl
    | reference r =>
      rw [expand_reference root stack happend, ih, expand_reference root stack h]
      cases substitute root stack r with
      | error e => rfl
      | ok front =>
        cases expand root stack rest <;> cases expand root stack post <;>
          simp [Except.map, Except.bind]

/-- A text that can be expanded is made of tokens. -/
theorem scans_of_expand (stack : List String) (s : List Char) :
    ∀ out, expand root stack s = .ok out → Scans s [] := by
  induction stack, s using expansion_induction root with
  | nil stack => exact fun _ _ => .refl []
  | unclosed stack rest brace =>
    intro out h
    rw [expand_unclosed root stack brace] at h
    cases h
  | char stack s c rest hreads ih =>
    intro out h
    obtain ⟨tail, hrest, -⟩ := (expand_char_eq_ok_iff hreads).mp h
    exact .token hreads (ih tail hrest)
  | reference stack s r rest hreads _ _ ih =>
    intro out h
    obtain ⟨_, tail, -, hrest, -⟩ := (expand_reference_eq_ok_iff hreads).mp h
    exact .token hreads (ih tail hrest)

theorem expand_append_of_ok (h : expand root stack pre = .ok front) (hlone : ¬ Scans pre ['$'])
    (post : List Char) :
    expand root stack (pre ++ post) = (expand root stack post).map (front ++ ·) := by
  rw [expand_append (complete_iff.mpr ⟨scans_of_expand stack pre front h, hlone⟩), h]
  rfl

/-! ## Escaped texts -/

/-- The text with every dollar sign doubled. -/
def doubled : List Char → List Char
  | [] => []
  | '$' :: rest => '$' :: '$' :: doubled rest
  | c :: rest => c :: doubled rest

theorem doubled_cons {c : Char} (h : c ≠ '$') (rest : List Char) :
    doubled (c :: rest) = c :: doubled rest := by
  rw [doubled]
  exact h

theorem reads_doubled (c : Char) (rest : List Char) :
    Reads (doubled (c :: rest)) (.char c) (doubled rest) := by
  by_cases h : c = '$'
  · subst h
    exact .escaped _
  · rw [doubled_cons h]
    exact .ordinary c _ fun hc => absurd hc h

theorem complete_doubled (s : List Char) : Complete (doubled s) := by
  induction s with
  | nil => exact .nil
  | cons c rest ih =>
    refine .token (reads_doubled c rest) ?_ ih
    by_cases h : c = '$'
    · subst h
      simp [doubled]
    · simp [doubled_cons h, h]

/-- **Escaping is exact.** -/
theorem expand_doubled (root : Table) (stack : List String) (s : List Char) :
    expand root stack (doubled s) = .ok s := by
  induction s with
  | nil => exact expand_nil root stack
  | cons c rest ih =>
    rw [expand_char root stack (reads_doubled c rest), ih]
    rfl

theorem expand_reference_of_text {mid : List Char} {r : Reference}
    (h : Reads mid (.reference r) post) (hr : expand root stack r.text = .ok out) :
    expand root stack mid = (expand root stack post).map (out ++ ·) := by
  have hclosed : Reads r.text (.reference r) [] := by
    cases h with
    | reference _ _ colon brace => exact .reference r [] colon brace
  obtain ⟨front, tail, hfront, hnil, rfl⟩ := (expand_reference_eq_ok_iff hclosed).mp hr
  rw [expand_nil, Except.ok.injEq] at hnil
  rw [expand_reference root stack h, hfront, ← hnil, List.append_nil]

/-- A reference may give way to the escaped form of its text. -/
theorem expand_doubled_in_place {mid : List Char} {r : Reference}
    (boundary : Scans (pre ++ mid) mid) (h : Reads mid (.reference r) post)
    (hr : expand root stack r.text = .ok out) :
    expand root stack (pre ++ (doubled out ++ post)) = expand root stack (pre ++ mid) := by
  have hpre : Complete pre := by
    cases h with
    | reference => exact complete_of_scans boundary
  rw [expand_append hpre, expand_append hpre, expand_append (complete_doubled out),
    expand_doubled, expand_reference_of_text h hr]
  rfl

end

/-! ## Escaped configurations -/

section

variable (f g : String → String)

mutual

theorem stringsOf_mapStrings : ∀ v : Value, stringsOf (mapStrings f v) = (stringsOf v).map f
  | .string _ => rfl
  | .array items => stringsOfItems_mapItems items
  | .table entries => stringsOfEntries_mapEntries entries
  | .integer _ | .float _ | .bool _ | .stamp _ => rfl

theorem stringsOfItems_mapItems : ∀ items : List Value,
    stringsOfItems (mapItems f items) = (stringsOfItems items).map f
  | [] => rfl
  | v :: rest => by
    rw [mapItems, stringsOfItems, stringsOfItems, List.map_append, stringsOf_mapStrings v,
      stringsOfItems_mapItems rest]

theorem stringsOfEntries_mapEntries : ∀ entries : List (String × Value),
    stringsOfEntries (mapEntries f entries) = (stringsOfEntries entries).map f
  | [] => rfl
  | (key, v) :: rest => by
    rw [mapEntries, stringsOfEntries, stringsOfEntries, List.map_append, stringsOf_mapStrings v,
      stringsOfEntries_mapEntries rest]

end

variable {f g}

/- Replacing strings and undoing it leaves every part as it was. -/
mutual

theorem mapStrings_undo (h : ∀ s, g (f s) = s) : ∀ v : Value, mapStrings g (mapStrings f v) = v
  | .string s => by rw [mapStrings, mapStrings, h]
  | .array items => by rw [mapStrings, mapStrings, mapItems_undo h items]
  | .table entries => by rw [mapStrings, mapStrings, mapEntries_undo h entries]
  | .integer _ | .float _ | .bool _ | .stamp _ => rfl

theorem mapItems_undo (h : ∀ s, g (f s) = s) : ∀ items : List Value,
    mapItems g (mapItems f items) = items
  | [] => rfl
  | v :: rest => by rw [mapItems, mapItems, mapStrings_undo h v, mapItems_undo h rest]

theorem mapEntries_undo (h : ∀ s, g (f s) = s) : ∀ entries : List (String × Value),
    mapEntries g (mapEntries f entries) = entries
  | [] => rfl
  | (key, v) :: rest => by rw [mapEntries, mapEntries, mapStrings_undo h v, mapEntries_undo h rest]

end

end

/-- The string with every dollar sign doubled. -/
def doubledString (s : String) : String :=
  String.ofList (doubled s.toList)

theorem expands_doubledString (root : Table) (s : String) :
    Expands root (doubledString s).toList s.toList := by
  rw [doubledString, String.toList_ofList]
  exact expand_nil_eq_ok_iff.mp (expand_doubled root [] s.toList)

theorem resolve_doubled (t : Table) : resolve (mapEntries doubledString t) = .ok t := by
  let root := mapEntries doubledString t
  have hback : ∀ s, expansionOf root (doubledString s) = s := fun s =>
    expansionOf_eq_of_expands (expands_doubledString root s)
  refine resolve_eq_ok_iff.mpr ⟨fun s hs => ?_, (mapEntries_undo hback t).symm⟩
  rw [stringsOfEntries_mapEntries] at hs
  obtain ⟨original, -, rfl⟩ := List.mem_map.mp hs
  exact failure?_eq_none_iff.mpr ⟨_, expands_doubledString root original⟩

/-- **Expansion is compositional, and escaping is exact.** What follows a text that can be
expanded and does not end in a lone dollar sign is expanded as if it stood alone, or fails as
it does alone. A text with every dollar sign doubled expands to the text, so it can stand for
a reference that expands to it, and a configuration escaped in this way resolves to itself as
it was. -/
theorem expansion_is_compositional (root : Table) (stack : List String) :
    (∀ pre post front, expand root stack pre = .ok front → ¬ Scans pre ['$'] →
      expand root stack (pre ++ post) = (expand root stack post).map (front ++ ·)) ∧
    (∀ s, expand root stack (doubled s) = .ok s) ∧
    (∀ pre mid post r out, Scans (pre ++ mid) mid → Reads mid (.reference r) post →
      expand root stack r.text = .ok out →
      expand root stack (pre ++ (doubled out ++ post)) = expand root stack (pre ++ mid)) ∧
    ∀ t, resolve (mapEntries doubledString t) = .ok t :=
  ⟨fun _ post _ h hlone => expand_append_of_ok h hlone post, expand_doubled root stack,
    fun _ _ _ _ _ boundary h hr => expand_doubled_in_place boundary h hr, resolve_doubled⟩

/-- The price of the tariff is written out behind a dollar sign that is escaped itself; a
reference that is not closed fails there as it does alone. -/
theorem price_written_out :
    expand tariff [] "$$5$$/day".toList = .ok "$5$/day".toList ∧
      expand tariff [] ("$$".toList ++ (priceReference.text ++ "/day".toList)) =
        .ok "$5$/day".toList ∧
      expand tariff [] ("$$".toList ++ "$\x7bhall".toList) = .error .unclosedReference := by
  obtain ⟨happend, hescaped, hreplaced, -⟩ := expansion_is_compositional tariff []
  have written : expand tariff [] priceReference.text = .ok "5$".toList :=
    expand_nil_eq_ok_iff.mpr <| .string priceReference_plain.reads priceReference_plain.steps
      (t := "5$$") rfl expands_price .nil
  have hread : Reads (priceReference.text ++ "/day".toList) (.reference priceReference)
      "/day".toList := .reference priceReference _ (by decide) (by decide)
  have hsame := hreplaced "$$".toList _ _ priceReference _ (.token (.escaped _) (.refl _)) hread
    written
  have hwhole := hescaped "$5$/day".toList
  have hfails := happend "$$".toList "$\x7bhall".toList ['$'] (hescaped ['$'])
    (complete_doubled ['$']).not_scans_lone
  have hunclosed : expand tariff [] "$\x7bhall".toList = .error .unclosedReference :=
    expand_unclosed tariff [] (by decide)
  rw [hunclosed] at hfails
  exact ⟨hwhole, hsame.symm.trans hwhole, hfails⟩

/-- A dollar sign alone at the end is not complete: another one behind it adds nothing. -/
example : expand [] [] ['$'] = .ok ['$'] ∧ expand [] [] (['$'] ++ ['$']) = .ok ['$'] :=
  ⟨by cbv, by cbv⟩

end Wiring.Config
