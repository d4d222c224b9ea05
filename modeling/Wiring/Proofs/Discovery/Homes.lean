import Wiring.Proofs.Discovery.Scopes
import Wiring.Proofs.Text.Cuts

/-!
# Where a type is declared

The full name of a type falls into the scope that declares it, its simple name and its
arguments. The scope and the simple name part at the last double colon before the arguments;
colons may stand in a row there, and double colons inside the arguments do not count. So a
type that is listed under its own path is found by a scan of the scope that its full name
shows, and a scan near a type finds the type, until the container holds it.
-/

namespace Wiring

open Wiring.Text

/-- The segments of a path, from the last one to the first one, as reading the path backwards
finds them. -/
def backwardSegments (path : List Char) : List (List Char) :=
  (splitOn pathSeparator path.reverse).map List.reverse

section

variable {path front back : List Char}

/-- After the first colon of a double colon another one begins just when the text behind it
has one in it or begins with a colon. -/
theorem infix_behind_iff : pathSeparator.chars <:+: pathSeparator.others ++ back ↔
    back.head? = some ':' ∨ pathSeparator.chars <:+: back := by
  have hcolon : pathSeparator.others ++ back = ':' :: back := rfl
  rw [hcolon, List.infix_cons_iff]
  refine or_congr_left ⟨fun h => ?_, fun h => ?_⟩
  · obtain ⟨more, hmore⟩ := (List.cons_prefix_cons.mp h).2
    rw [← hmore]
    rfl
  · obtain ⟨more, rfl⟩ := List.head?_eq_some_iff.mp h
    exact ⟨more, rfl⟩

theorem not_infix_behind_of_colon_free (h : ':' ∉ back) :
    ¬ pathSeparator.chars <:+: pathSeparator.others ++ back := by
  rw [infix_behind_iff, not_or]
  exact ⟨fun hhead => h (List.mem_of_head? hhead),
    fun hcolons => h (hcolons.subset (List.mem_cons_self ..))⟩

theorem pathSeparator_infix_reverse :
    pathSeparator.chars <:+: path.reverse ↔ pathSeparator.chars <:+: path := by
  show pathSeparator.chars.reverse <:+: path.reverse ↔ _
  exact List.reverse_infix

theorem backwardSegments_of_cutLast (h : cutLast pathSeparator path = some (front, back)) :
    backwardSegments path = back :: backwardSegments front := by
  obtain ⟨rfl, hlast⟩ := cutLast_eq_some_iff.mp h
  -- Read backwards, the last double colon is the first one.
  have hfirst : ¬ pathSeparator.chars <:+: back.reverse ++ pathSeparator.chars.dropLast := by
    rw [← pathSeparator_infix_reverse] at hlast
    simpa [pathSeparator, Separator.chars] using hlast
  have hreverse : (front ++ pathSeparator.chars ++ back).reverse =
      back.reverse ++ pathSeparator.chars ++ front.reverse := by
    simp [pathSeparator, Separator.chars]
  rw [backwardSegments, hreverse, splitOn_append hfirst, List.map_cons, List.reverse_reverse]
  rfl

theorem backwardSegments_of_not_infix (h : ¬ pathSeparator.chars <:+: path) :
    backwardSegments path = [path] := by
  rw [backwardSegments, splitOn_eq_singleton (mt pathSeparator_infix_reverse.mp h), List.map_cons,
    List.reverse_reverse, List.map_nil]

end

namespace TypeName

variable {t : TypeName} {s front back : List Char}

theorem base_eq_iff : t.base = s ↔
    '<' ∉ s ∧ (t.text.toList = s ∨ ∃ arguments, t.text.toList = s ++ '<' :: arguments) :=
  takeWhile_ne_eq_iff

theorem parts_of_cutLast (h : cutLast pathSeparator t.base = some (front, back)) :
    t.scope.toList = front ∧ t.simple.toList = back := by
  simp [scope, scopeChars, simple, simpleChars, h]

theorem parts_of_not_infix (h : ¬ pathSeparator.chars <:+: t.base) :
    t.scope = "" ∧ t.simple.toList = t.base := by
  have hcut : cutLast pathSeparator t.base = none := cutLast_eq_none_iff.mpr h
  simp [scope, scopeChars, simple, simpleChars, hcut]

theorem cutLast_base_of_infix (h : pathSeparator.chars <:+: t.base) :
    cutLast pathSeparator t.base = some (t.scope.toList, t.simple.toList) := by
  cases hcut : cutLast pathSeparator t.base with
  | none => exact absurd h (cutLast_eq_none_iff.mp hcut)
  | some parts =>
    obtain ⟨hscope, hsimple⟩ := parts_of_cutLast hcut
    rw [hscope, hsimple]

end TypeName

namespace Discoverable

variable {d : Discoverable}

/-- The full name of the type is the path of the entry, with type arguments behind it or
without. Nothing in the path could be taken for arguments, and the short name has no colon. -/
structure NamesItsType (d : Discoverable) : Prop where
  scope : '<' ∉ d.scope.toList
  name : '<' ∉ d.name.toList
  segment : ':' ∉ d.name.toList
  full : d.type.text = d.path ∨ ∃ arguments, d.type.text = d.path ++ "<" ++ arguments

theorem NamesItsType.base (h : d.NamesItsType) :
    d.type.base = d.scope.toList ++ pathSeparator.chars ++ d.name.toList := by
  have hpath : d.path.toList = d.scope.toList ++ pathSeparator.chars ++ d.name.toList := by
    simp [path, pathSeparator, Separator.chars]
  rw [← hpath]
  refine TypeName.base_eq_iff.mpr ⟨?_, ?_⟩
  · simp [hpath, pathSeparator, Separator.chars, h.scope, h.name]
  · rcases h.full with hfull | ⟨arguments, hfull⟩
    · exact .inl (by rw [hfull])
    · exact .inr ⟨arguments.toList, by simp [hfull]⟩

theorem NamesItsType.parts (h : d.NamesItsType) :
    d.type.scope = d.scope ∧ d.type.simple = d.name := by
  have hcut : cutLast pathSeparator d.type.base = some (d.scope.toList, d.name.toList) :=
    cutLast_eq_some_iff.mpr ⟨h.base, not_infix_behind_of_colon_free h.segment⟩
  obtain ⟨hscope, hsimple⟩ := TypeName.parts_of_cutLast hcut
  exact ⟨String.toList_injective hscope, String.toList_injective hsimple⟩

theorem NamesItsType.isWithin (h : d.NamesItsType) : d.isWithin d.type.scope = true := by
  rw [h.parts.1, isWithin_iff]
  exact .refl _

end Discoverable

namespace Scan

variable {α ω : Type}

/-- A pass goes through a list as through its parts, one after the other. -/
theorem pass_append (scan : Scan α ω) (before after : List Discoverable) (s : ω) :
    scan.pass (before ++ after) s =
      ((scan.pass before s).1 ++ (scan.pass after (scan.pass before s).2).1,
        (scan.pass after (scan.pass before s).2).2) := by
  induction before generalizing s with
  | nil => rfl
  | cons d rest ih =>
    rw [List.cons_append, pass, pass]
    split
    · rcases scan.container.contains d.type s with ⟨held, s'⟩
      cases held with
      | true => exact ih s'
      | false => simp only [ih s', List.cons_append]
    · exact ih s

theorem pass_cons_of_within {scan : Scan α ω} {d : Discoverable}
    (h : d.isWithin scan.scope = true) (rest : List Discoverable) (s : ω) :
    (scan.pass (d :: rest) s).1 =
      (if (scan.container.contains d.type s).1 = true then [] else [d]) ++
        (scan.pass rest (scan.container.contains d.type s).2).1 := by
  rw [pass, if_pos h]
  rcases scan.container.contains d.type s with ⟨held, s'⟩
  cases held <;> rfl

end Scan

/-- **Names part where scopes end.** The base of a full name is what stands before its first
angle bracket. If there is a double colon in it, the base is the scope, a double colon and the
simple name; the double colon is the last one, so that the simple name neither has one in it
nor begins with a colon, and reading the segments backwards gives the simple name first and
then the segments of the scope. Otherwise there is no scope, and the simple name is the base.
So an entry whose path is the full name of its type, arguments aside, is within the scope of
that name: wherever it is listed, a scan near the type finds it there, unless the container
says at that moment that it holds the type. Over a context such a scan finds the entry just
when it is listed and the context does not hold its type. -/
theorem names_part_where_scopes_end {α ω : Type} (container : Container α ω) :
    (∀ (t : TypeName) base, t.base = base ↔ '<' ∉ base ∧
      (t.text.toList = base ∨ ∃ arguments, t.text.toList = base ++ '<' :: arguments)) ∧
    (∀ t : TypeName, pathSeparator.chars <:+: t.base →
      t.base = t.scope.toList ++ pathSeparator.chars ++ t.simple.toList ∧
      ¬ pathSeparator.chars <:+: t.simple.toList ∧ t.simple.toList.head? ≠ some ':' ∧
      backwardSegments t.base = t.simple.toList :: backwardSegments t.scope.toList) ∧
    (∀ t : TypeName, ¬ pathSeparator.chars <:+: t.base →
      t.scope = "" ∧ t.simple.toList = t.base ∧ backwardSegments t.base = [t.simple.toList]) ∧
    (∀ d : Discoverable, d.NamesItsType → d.isWithin d.type.scope = true) ∧
    (∀ d : Discoverable, d.NamesItsType → ∀ before after s,
      let scan := Scan.near d.type container
      let asked := container.contains d.type (scan.pass before s).2
      (scan.pass (before ++ d :: after) s).1 = (scan.pass before s).1 ++
        (if asked.1 = true then [] else [d]) ++ (scan.pass after asked.2).1) ∧
    ∀ d : Discoverable, d.NamesItsType → ∀ (c : Context α) known,
      d ∈ ((Scan.near d.type Context.container).pass known c).1 ↔
        d ∈ known ∧ c.contains d.type = false := by
  refine ⟨fun t base => TypeName.base_eq_iff, fun t h => ?_, fun t h => ?_,
    fun d hd => hd.isWithin, fun d hd before after s => ?_, fun d hd c known => ?_⟩
  · have hcut := TypeName.cutLast_base_of_infix h
    obtain ⟨hbase, hlast⟩ := cutLast_eq_some_iff.mp hcut
    obtain ⟨hhead, hcolons⟩ := not_or.mp (mt infix_behind_iff.mpr hlast)
    exact ⟨hbase, hcolons, hhead, backwardSegments_of_cutLast hcut⟩
  · obtain ⟨hscope, hsimple⟩ := TypeName.parts_of_not_infix h
    exact ⟨hscope, hsimple, by rw [hsimple, backwardSegments_of_not_infix h]⟩
  · intro scan asked
    have hwithin : d.isWithin scan.scope = true := hd.isWithin
    rw [Scan.pass_append, Scan.pass_cons_of_within hwithin, ← List.append_assoc]
    rfl
  · change d ∈ ((Scan.within d.type.scope).pass known c).1 ↔ _
    rw [Scan.pass_within, Scan.mem_missing_iff]
    exact ⟨fun h => ⟨h.1, h.2.2⟩, fun h => ⟨h.1, hd.isWithin, h.2⟩⟩

/-! A kiosk for goods of any kind, named with the kind it is for, and one in a scope that begins
with the same letters. -/

def kiosk : Discoverable := ⟨"mall::shop", "Kiosk", ⟨"mall::shop::Kiosk<goods::Crate>"⟩⟩

def booth : Discoverable := ⟨"mall::shopping", "Kiosk", ⟨"mall::shopping::Kiosk"⟩⟩

theorem namesItsType_kiosk : kiosk.NamesItsType where
  scope := by decide
  name := by decide
  segment := by decide
  full := .inr ⟨"goods::Crate>", by cbv⟩

theorem kiosk_found_near :
    pathSeparator.chars <:+: kiosk.type.base ∧ kiosk.NamesItsType ∧
    backwardSegments kiosk.type.base = kiosk.type.simple.toList ::
      backwardSegments kiosk.type.scope.toList ∧
    ¬ pathSeparator.chars <:+: (⟨"Lamp"⟩ : TypeName).base ∧ (⟨"Lamp"⟩ : TypeName).scope = "" ∧
    kiosk ∈ ((Scan.near kiosk.type Context.container).pass [booth, kiosk]
      ({ environment := .empty, policy := .reject } : Context Nat)).1 := by
  obtain ⟨-, hparts, hplain, -, -, hfound⟩ :=
    names_part_where_scopes_end (Context.container : Container Nat _)
  have hqualified : pathSeparator.chars <:+: kiosk.type.base :=
    ⟨"mall".toList, "shop::Kiosk".toList, by decide⟩
  have hunqualified : ¬ pathSeparator.chars <:+: (⟨"Lamp"⟩ : TypeName).base :=
    cutLast_eq_none_iff.mp (by decide)
  refine ⟨hqualified, namesItsType_kiosk, (hparts _ hqualified).2.2.2, hunqualified,
    (hplain _ hunqualified).1, ?_⟩
  exact (hfound kiosk namesItsType_kiosk _ [booth, kiosk]).mpr ⟨by decide, rfl⟩

/-- With three colons in a row the last two part the name. -/
example :
    let t : TypeName := ⟨"mall:::Kiosk<goods::Crate>"⟩
    t.scope = "mall:" ∧ t.simple = "Kiosk" := by
  decide

end Wiring
