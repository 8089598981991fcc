import RimStone.Source.Format
import RimStone.Laws.Memory.Str
import RimStone.Lib.Yields

/-!
# Formats are checked

A format is a list of placeholders and percent signs, and the loop goes through it with the parameters: each
placeholder takes one. But the loop has no place for a percent sign when there are no parameters left. The list has
room for what a number of bytes of the format stand for, while a parameter can be of any length: what does not fit is
cut, and the next parameter is written behind the end.
-/

namespace RimStone

open RimStone.Lib

/-! ## What a format is -/

inductive Placeholder : ParamKind → Bytes → Prop
  | string {digits : Bytes} : (∀ c ∈ digits, isdigit c = true) → Placeholder .string (digits ++ ascii "s")
  | double {digits f : Bytes} : (∀ c ∈ digits, isdigit c = true) → f ∈ [ascii "f", ascii "e", ascii "g"] →
      Placeholder .double (digits ++ f)
  | point {digits more f : Bytes} : (∀ c ∈ digits, isdigit c = true) → (∀ c ∈ more, isdigit c = true) →
      f ∈ [ascii "f", ascii "e", ascii "g"] → Placeholder .double (digits ++ 46 :: (more ++ f))
  | number {digits f : Bytes} : (∀ c ∈ digits, isdigit c = true) →
      f ∈ [ascii "ld", ascii "lo", ascii "lx", ascii "hd", ascii "hu", ascii "ho", ascii "hx", ascii "hhd", ascii "hho",
        ascii "hhu", ascii "hhx"] → Placeholder .number (digits ++ f)
  | character : Placeholder .character (ascii "c")

inductive FormatItem where
  | percent
  | place (kind : ParamKind)
  /-- A percent sign that begins no placeholder. -/
  | bad
  deriving DecidableEq, Repr

/-- What a format is made of; what is behind a percent sign that begins no placeholder does not matter. -/
inductive FormatItems : Bytes → List FormatItem → Prop
  | plain {s : Bytes} : (∀ c ∈ s, c ≠ 37) → FormatItems s []
  | percent {s rest : Bytes} {items : List FormatItem} : (∀ c ∈ s, c ≠ 37) → FormatItems rest items →
      FormatItems (s ++ 37 :: 37 :: rest) (.percent :: items)
  | place {s ph rest : Bytes} {kind : ParamKind} {items : List FormatItem} : (∀ c ∈ s, c ≠ 37) → Placeholder kind ph →
      FormatItems rest items → FormatItems (s ++ 37 :: (ph ++ rest)) (.place kind :: items)
  | bad {s rest : Bytes} : (∀ c ∈ s, c ≠ 37) → rest.head? ≠ some 37 → (∀ kind ph, Placeholder kind ph → ¬ ph <+: rest) →
      FormatItems (s ++ 37 :: rest) [.bad]

/-! ## How a placeholder is found -/

def behindLength (isd : Bool) (s : Bytes) : Bytes :=
  let digits := s.dropWhile isdigit
  if isd ∧ digits.head? = some 46 then digits.tail.dropWhile isdigit else digits

/-- A name begins with a character that is in no number. -/
def NameOf (f : Bytes) : Prop := ∃ c t, f = c :: t ∧ isdigit c = false ∧ c ≠ 46

section Placeholders

variable {s f ph rest digits more : Bytes} {isd : Bool} {family : Family}

theorem isLenFormat_eq (s f : Bytes) (isd : Bool) :
    isLenFormat s f isd = if f.isPrefixOf (behindLength isd s) then s.length - (behindLength isd s).length + f.length else 0 := rfl

theorem dropWhile_digits {c : UInt8} (hdigits : ∀ x ∈ digits, isdigit x = true) (hc : isdigit c = false) (rest : Bytes) :
    (digits ++ c :: rest).dropWhile isdigit = c :: rest := by
  rw [List.dropWhile_append_of_pos hdigits, List.dropWhile_cons_of_neg (by simp [hc])]

theorem behind_plain (hdigits : ∀ x ∈ digits, isdigit x = true) (hf : NameOf f) :
    behindLength isd (digits ++ (f ++ rest)) = f ++ rest := by
  obtain ⟨c, t, rfl, hc, hpoint⟩ := hf
  unfold behindLength
  rw [List.cons_append, dropWhile_digits hdigits hc, if_neg]
  exact fun h => hpoint (Option.some.inj h.2)

theorem behind_point (hdigits : ∀ x ∈ digits, isdigit x = true) (hmore : ∀ x ∈ more, isdigit x = true) (hf : NameOf f) :
    behindLength true (digits ++ 46 :: (more ++ (f ++ rest))) = f ++ rest := by
  obtain ⟨c, t, rfl, hc, -⟩ := hf
  unfold behindLength
  rw [dropWhile_digits hdigits (by decide), if_pos ⟨rfl, rfl⟩, List.tail_cons, List.cons_append, dropWhile_digits hmore hc]

theorem behind_point_false (hdigits : ∀ x ∈ digits, isdigit x = true) (t : Bytes) :
    behindLength false (digits ++ 46 :: t) = 46 :: t := by
  unfold behindLength
  rw [dropWhile_digits hdigits (by decide), if_neg (by simp)]

/-- The length and the precision are in front of what is behind them. -/
theorem exists_behind (isd : Bool) (s : Bytes) : ∃ digits, (∀ c ∈ digits, isdigit c = true) ∧
    (s = digits ++ behindLength isd s ∨
      isd = true ∧ ∃ more, (∀ c ∈ more, isdigit c = true) ∧ s = digits ++ 46 :: (more ++ behindLength isd s)) := by
  refine ⟨s.takeWhile isdigit, fun c hc => List.mem_takeWhile_imp hc, ?_⟩
  have hsplit := List.takeWhile_append_dropWhile (p := isdigit) (l := s)
  unfold behindLength
  dsimp only
  split
  · next hpoint =>
    obtain ⟨hisd, hhead⟩ := hpoint
    refine .inr ⟨hisd, (s.dropWhile isdigit).tail.takeWhile isdigit, fun c hc => List.mem_takeWhile_imp hc, ?_⟩
    rw [List.takeWhile_append_dropWhile]
    obtain ⟨t, ht⟩ := List.head?_eq_some_iff.mp hhead
    conv_lhs => rw [← hsplit]
    rw [ht, List.tail_cons]
  · exact .inl hsplit.symm

theorem behind_name (hf : NameOf f) (h : f <+: s) : behindLength isd s = s := by
  obtain ⟨rest, rfl⟩ := h
  exact @behind_plain f rest [] isd (fun _ h => by cases h) hf

theorem findSome?_only {α β : Type} {l : List α} {g : α → Option β} {b : β} (hone : ∃ a ∈ l, g a = some b)
    (hall : ∀ a ∈ l, g a = none ∨ g a = some b) : l.findSome? g = some b := by
  obtain ⟨a, ha, hb⟩ := hone
  cases hfind : l.findSome? g with
  | none =>
    rw [List.findSome?_eq_none_iff.mp hfind a ha] at hb
    cases hb
  | some c =>
    obtain ⟨x, hx, hc⟩ := List.exists_of_findSome?_eq_some hfind
    rcases hall x hx with hnone | hsome
    · rw [hnone] at hc
      cases hc
    · exact hc.symm.trans hsome

/-- The placeholder of a family is the name that is behind the length and the precision. -/
theorem Family.len_some (hnames : ∀ g ∈ family.names, NameOf g) (hmem : f ∈ family.names)
    (hf : f <+: behindLength family.isd s) (hone : ∀ g ∈ family.names, g <+: behindLength family.isd s → g = f) :
    family.len s = some (s.length - (behindLength family.isd s).length + f.length) := by
  unfold Family.len
  cases hfind : family.names.find? (·.isPrefixOf s) with
  | some g =>
    have hpre : g <+: s := List.isPrefixOf_iff_prefix.mp (@List.find?_some _ (fun x : Bytes => x.isPrefixOf s) _ _ hfind)
    have hg := hnames g (List.mem_of_find?_eq_some hfind)
    have hstrip := @behind_name s g family.isd hg hpre
    obtain rfl := hone g (List.mem_of_find?_eq_some hfind) (by rw [hstrip]; exact hpre)
    dsimp only
    rw [hstrip, Nat.sub_self, Nat.zero_add]
  | none =>
    obtain ⟨c, t, hct, -⟩ := hnames f hmem
    have hpos : 0 < f.length := by
      rw [hct]
      exact Nat.succ_pos _
    refine findSome?_only ⟨f, hmem, ?_⟩ fun g hg => ?_
    · rw [isLenFormat_eq, if_pos (List.isPrefixOf_iff_prefix.mpr hf), if_neg (by omega)]
    · by_cases hgf : g = f
      · subst hgf
        rw [isLenFormat_eq, if_pos (List.isPrefixOf_iff_prefix.mpr hf), if_neg (by omega)]
        exact .inr rfl
      · have hno : ¬ g.isPrefixOf (behindLength family.isd s) = true := fun hyes =>
          hgf (hone g hg (List.isPrefixOf_iff_prefix.mp hyes))
        rw [isLenFormat_eq, if_neg hno, if_pos rfl]
        exact .inl rfl

/-- No name is behind the length and the precision. -/
theorem Family.len_none (hnames : ∀ g ∈ family.names, NameOf g) (hno : ∀ g ∈ family.names, ¬ g <+: behindLength family.isd s) :
    family.len s = none := by
  unfold Family.len
  cases hfind : family.names.find? (·.isPrefixOf s) with
  | some g =>
    have hpre : g <+: s := List.isPrefixOf_iff_prefix.mp (@List.find?_some _ (fun x : Bytes => x.isPrefixOf s) _ _ hfind)
    have hmem := List.mem_of_find?_eq_some hfind
    have hstrip := @behind_name s g family.isd (hnames g hmem) hpre
    exact absurd (by rw [hstrip]; exact hpre) (hno g hmem)
  | none =>
    refine List.findSome?_eq_none_iff.mpr fun g hg => ?_
    rw [isLenFormat_eq, if_neg fun hyes => hno g hg (List.isPrefixOf_iff_prefix.mp hyes), if_pos rfl]

/-- What a family finds is a name behind a length and a precision. -/
theorem Family.of_len (hnames : ∀ g ∈ family.names, NameOf g) {n : Nat} (h : family.len s = some n) :
    ∃ f ∈ family.names, f <+: behindLength family.isd s ∧ n = s.length - (behindLength family.isd s).length + f.length := by
  unfold Family.len at h
  cases hfind : family.names.find? (·.isPrefixOf s) with
  | some g =>
    rw [hfind] at h
    have hpre : g <+: s := List.isPrefixOf_iff_prefix.mp (@List.find?_some _ (fun x : Bytes => x.isPrefixOf s) _ _ hfind)
    have hmem := List.mem_of_find?_eq_some hfind
    have hstrip := @behind_name s g family.isd (hnames g hmem) hpre
    obtain rfl := Option.some.inj h
    refine ⟨g, hmem, by rw [hstrip]; exact hpre, ?_⟩
    rw [hstrip, Nat.sub_self, Nat.zero_add]
  | none =>
    rw [hfind] at h
    obtain ⟨g, hg, hlen⟩ := List.exists_of_findSome?_eq_some h
    rw [isLenFormat_eq] at hlen
    by_cases hyes : g.isPrefixOf (behindLength family.isd s) = true
    · rw [if_pos hyes] at hlen
      split at hlen
      · cases hlen
      · exact ⟨g, hg, List.isPrefixOf_iff_prefix.mp hyes, (Option.some.inj hlen).symm⟩
    · rw [if_neg hyes, if_pos rfl] at hlen
      cases hlen

/-- The names of placeholders are names, and none begins another. -/
theorem families_names {g : Bytes} (hfamily : family ∈ families) (hg : g ∈ family.names) : NameOf g := by
  have hall : ∀ family ∈ families, ∀ g ∈ family.names, g ≠ [] ∧ isdigit (g.headD 0) = false ∧ g.headD 0 ≠ 46 := by decide
  obtain ⟨hne, hdigit, hpoint⟩ := hall family hfamily g hg
  cases g with
  | nil => exact absurd rfl hne
  | cons c t => exact ⟨c, t, rfl, hdigit, hpoint⟩

theorem families_apart {other : Family} {g : Bytes} (hfamily : family ∈ families) (hf : f ∈ family.names)
    (hother : other ∈ families) (hg : g ∈ other.names) (hgf : g <+: f ++ rest) : g = f ∧ other = family := by
  have hall : ∀ family ∈ families, ∀ f ∈ family.names, ∀ other ∈ families, ∀ g ∈ other.names,
      (g <+: f → g = f ∧ other = family) ∧ (f <+: g → g = f ∧ other = family) := by decide
  rcases List.prefix_or_prefix_of_prefix hgf (List.prefix_append f rest) with h | h
  · exact (hall family hfamily f hf other hother g hg).1 h
  · exact (hall family hfamily f hf other hother g hg).2 h

/-- The name of a family, behind a length and a precision. -/
theorem placeholder_found (hfamily : family ∈ families) (hf : f ∈ family.names) (hstrip : behindLength family.isd s = f ++ rest)
    (hothers : ∀ isd, behindLength isd s = f ++ rest ∨ ∃ t, behindLength isd s = 46 :: t) :
    placeholder s = some (family.kind, s.length - (f ++ rest).length + f.length) := by
  have hfind : families.findSome? (fun family => (family.len s).map (family.kind, ·)) =
      some (family.kind, s.length - (f ++ rest).length + f.length) := by
    refine findSome?_only ⟨family, hfamily, ?_⟩ fun other hother => ?_
    · rw [Family.len_some (fun g hg => families_names hfamily hg) hf, hstrip]
      · rfl
      · rw [hstrip]
        exact List.prefix_append f rest
      · intro g hg hgf
        rw [hstrip] at hgf
        exact (families_apart hfamily hf hfamily hg hgf).1
    · by_cases hsame : other = family
      · subst hsame
        right
        rw [Family.len_some (fun g hg => families_names hfamily hg) hf, hstrip]
        · rfl
        · rw [hstrip]
          exact List.prefix_append f rest
        · intro g hg hgf
          rw [hstrip] at hgf
          exact (families_apart hfamily hf hfamily hg hgf).1
      · left
        rw [Family.len_none (fun g hg => families_names hother hg)]
        · rfl
        · intro g hg hgf
          rcases hothers other.isd with hplain | ⟨t, hpoint⟩
          · rw [hplain] at hgf
            exact hsame (families_apart hfamily hf hother hg hgf).2
          · obtain ⟨c, t', rfl, -, hc⟩ := families_names hother hg
            rw [hpoint] at hgf
            exact hc (List.cons_prefix_cons.mp hgf).1
  unfold placeholder
  rw [hfind]

theorem placeholder_plain (hfamily : family ∈ families) (hf : f ∈ family.names) (hdigits : ∀ x ∈ digits, isdigit x = true)
    (rest : Bytes) : placeholder (digits ++ f ++ rest) = some (family.kind, (digits ++ f).length) := by
  have hname := families_names hfamily hf
  have hstrip : ∀ isd, behindLength isd (digits ++ f ++ rest) = f ++ rest := by
    intro isd
    rw [List.append_assoc]
    exact behind_plain hdigits hname
  rw [placeholder_found hfamily hf (hstrip _) fun isd => .inl (hstrip isd)]
  simp only [List.length_append]
  congr 2
  omega

/-- A placeholder is found, whatever is behind it. -/
theorem Placeholder.found {kind : ParamKind} (h : Placeholder kind ph) (rest : Bytes) :
    placeholder (ph ++ rest) = some (kind, ph.length) := by
  cases h with
  | string hdigits =>
    exact @placeholder_plain _ _ { names := [ascii "s"], isd := false, kind := .string } (by decide) (by decide) hdigits rest
  | double hdigits hf =>
    exact @placeholder_plain _ _ { names := [ascii "f", ascii "e", ascii "g"], isd := true, kind := .double } (by decide) hf hdigits rest
  | @point digits more f hdigits hmore hf =>
    have hfamily : { names := [ascii "f", ascii "e", ascii "g"], isd := true, kind := .double } ∈ families := by decide
    have hname : NameOf f := families_names hfamily hf
    have htext : digits ++ 46 :: (more ++ f) ++ rest = digits ++ 46 :: (more ++ (f ++ rest)) := by
      rw [List.append_assoc, List.cons_append, List.append_assoc]
    have hstrip := @behind_point f rest digits more hdigits hmore hname
    rw [htext, placeholder_found hfamily hf hstrip]
    · simp only [List.length_append, List.length_cons]
      congr 2
      omega
    · intro isd
      cases isd with
      | true => exact .inl hstrip
      | false => exact .inr ⟨_, behind_point_false hdigits _⟩
  | @number digits f hdigits hf =>
    have hall : ∀ f ∈ [ascii "ld", ascii "lo", ascii "lx", ascii "hd", ascii "hu", ascii "ho", ascii "hx", ascii "hhd", ascii "hho",
        ascii "hhu", ascii "hhx"], ∃ family ∈ families, f ∈ family.names ∧ family.kind = .number := by decide
    obtain ⟨family, hfamily, hmem, hkind⟩ := hall f hf
    rw [placeholder_plain hfamily hmem hdigits rest, hkind]
  | character =>
    have hno : ∀ family ∈ families, ∀ g ∈ family.names, g.head? ≠ some 99 := by decide
    have hname : NameOf (ascii "c") := ⟨99, [], rfl, by decide, by decide⟩
    have hnone : families.findSome? (fun family => (family.len (ascii "c" ++ rest)).map (family.kind, ·)) = none := by
      refine List.findSome?_eq_none_iff.mpr fun family hfamily => ?_
      rw [Family.len_none (fun g hg => families_names hfamily hg)]
      · rfl
      · intro g hg hgf
        rw [@behind_name _ _ family.isd hname (List.prefix_append _ _)] at hgf
        obtain ⟨c, t, rfl, -, -⟩ := families_names hfamily hg
        obtain rfl := (List.cons_prefix_cons.mp hgf).1
        exact hno family hfamily _ hg rfl
    unfold placeholder
    rw [hnone]
    rfl

theorem digits_head (hdigits : ∀ x ∈ digits, isdigit x = true) (hf : ∃ c t, f = c :: t ∧ c ≠ 37) :
    ∃ c t, digits ++ f = c :: t ∧ c ≠ 37 := by
  cases digits with
  | nil => exact hf
  | cons c digits =>
    refine ⟨c, digits ++ f, rfl, ?_⟩
    rintro rfl
    exact absurd (hdigits 37 List.mem_cons_self) (by decide)

/-- A placeholder does not begin with a percent sign. -/
theorem Placeholder.head {kind : ParamKind} (h : Placeholder kind ph) : ∃ c t, ph = c :: t ∧ c ≠ 37 := by
  have hname : ∀ family ∈ families, ∀ f ∈ family.names, ∃ c t, f = c :: t ∧ c ≠ 37 := by
    intro family hfamily f hf
    obtain ⟨c, t, rfl, -, -⟩ := families_names hfamily hf
    refine ⟨c, t, rfl, ?_⟩
    rintro rfl
    have hall : ∀ family ∈ families, ∀ f ∈ family.names, f.head? ≠ some 37 := by decide
    exact hall family hfamily _ hf rfl
  have hdouble : ∀ f ∈ [ascii "f", ascii "e", ascii "g"], ∃ family ∈ families, f ∈ family.names := by decide
  have hnumber : ∀ f ∈ [ascii "ld", ascii "lo", ascii "lx", ascii "hd", ascii "hu", ascii "ho", ascii "hx", ascii "hhd", ascii "hho",
      ascii "hhu", ascii "hhx"], ∃ family ∈ families, f ∈ family.names := by decide
  cases h with
  | string hdigits => exact digits_head hdigits ⟨115, [], rfl, by decide⟩
  | double hdigits hf =>
    obtain ⟨family, hfamily, hmem⟩ := hdouble _ hf
    exact digits_head hdigits (hname family hfamily _ hmem)
  | point hdigits _ _ => exact digits_head hdigits ⟨46, _, rfl, by decide⟩
  | number hdigits hf =>
    obtain ⟨family, hfamily, hmem⟩ := hnumber _ hf
    exact digits_head hdigits (hname family hfamily _ hmem)
  | character => exact ⟨99, [], rfl, by decide⟩

/-- What is found is a placeholder. -/
theorem of_placeholder {kind : ParamKind} {n : Nat} (h : placeholder s = some (kind, n)) :
    ∃ ph rest, s = ph ++ rest ∧ ph.length = n ∧ Placeholder kind ph := by
  unfold placeholder at h
  cases hfind : families.findSome? fun family => (family.len s).map (family.kind, ·) with
  | none =>
    rw [hfind] at h
    dsimp only at h
    split at h
    · next hc =>
      obtain ⟨rfl, rfl⟩ := Prod.mk.inj (Option.some.inj h)
      obtain ⟨t, rfl⟩ := List.head?_eq_some_iff.mp hc
      exact ⟨[99], t, rfl, rfl, .character⟩
    · cases h
  | some found =>
    rw [hfind] at h
    obtain rfl := Option.some.inj h
    obtain ⟨family, hfamily, hlen⟩ := List.exists_of_findSome?_eq_some hfind
    obtain ⟨m, hm, hpair⟩ := Option.map_eq_some_iff.mp hlen
    obtain ⟨rfl, rfl⟩ := Prod.mk.inj hpair
    obtain ⟨f, hf, ⟨rest, hrest⟩, rfl⟩ := Family.of_len (fun g hg => families_names hfamily hg) hm
    obtain ⟨digits, hdigits, hs⟩ := exists_behind family.isd s
    rw [← hrest] at hs
    have hkinds : ∀ family ∈ families, ∀ f ∈ family.names, family.isd = true → family.kind = .double ∧
        f ∈ [ascii "f", ascii "e", ascii "g"] := by decide
    rcases hs with hs | ⟨hisd, more, hmore, hs⟩
    · refine ⟨digits ++ f, rest, by rw [hs, List.append_assoc], ?_, ?_⟩
      · rw [← hrest, hs]
        simp only [List.length_append]
        omega
      · have hcases : ∀ family ∈ families, ∀ f ∈ family.names,
            family.kind = .string ∧ f = ascii "s" ∨ family.kind = .double ∧ f ∈ [ascii "f", ascii "e", ascii "g"] ∨
            family.kind = .number ∧ f ∈ [ascii "ld", ascii "lo", ascii "lx", ascii "hd", ascii "hu", ascii "ho", ascii "hx",
              ascii "hhd", ascii "hho", ascii "hhu", ascii "hhx"] := by decide
        rcases hcases family hfamily f hf with ⟨hkind, rfl⟩ | ⟨hkind, hmem⟩ | ⟨hkind, hmem⟩
        · rw [hkind]
          exact .string hdigits
        · rw [hkind]
          exact .double hdigits hmem
        · rw [hkind]
          exact .number hdigits hmem
    · obtain ⟨hkind, hmem⟩ := hkinds family hfamily f hf hisd
      refine ⟨digits ++ 46 :: (more ++ f), rest, ?_, ?_, ?_⟩
      · rw [hs, List.append_assoc, List.cons_append, List.append_assoc]
      · rw [← hrest, hs]
        simp only [List.length_append, List.length_cons]
        omega
      · rw [hkind]
        exact .point hdigits hmore hmem

end Placeholders

/-! ## The items of a format -/

theorem length_percent {s rest : Bytes} {c : UInt8} (h : s.dropWhile (· != 37) = c :: rest) : rest.length < s.length := by
  have hle := (List.dropWhile_suffix (fun c : UInt8 => c != 37) (l := s)).length_le
  rw [h, List.length_cons] at hle
  exact hle

/-- The items of a format, one percent sign after the other. -/
def formatItems (s : Bytes) : List FormatItem :=
  match _ : s.dropWhile (· != 37) with
  | [] => []
  | _ :: rest =>
    if rest.head? = some 37 then .percent :: formatItems rest.tail
    else match placeholder rest with
      | some (kind, n) => .place kind :: formatItems (rest.drop n)
      | none => [.bad]
termination_by s.length
decreasing_by
  · next h _ =>
    have hlt := length_percent h
    rw [List.length_tail]
    omega
  · next h _ =>
    have hlt := length_percent h
    rw [List.length_drop]
    omega

section Items

variable {s rest : Bytes} {c : UInt8}

theorem formatItems_nil (h : s.dropWhile (· != 37) = []) : formatItems s = [] := by
  rw [formatItems]
  split
  · rfl
  · next hcons =>
    rw [h] at hcons
    cases hcons

theorem formatItems_cons (h : s.dropWhile (· != 37) = c :: rest) :
    formatItems s = if rest.head? = some 37 then .percent :: formatItems rest.tail
      else (placeholder rest).elim [.bad] fun found => .place found.1 :: formatItems (rest.drop found.2) := by
  rw [formatItems]
  split
  · next hnil =>
    rw [h] at hnil
    cases hnil
  · next hcons =>
    obtain ⟨-, rfl⟩ := List.cons.inj (h.symm.trans hcons)
    by_cases hhead : rest.head? = some 37
    · rw [if_pos hhead, if_pos hhead]
    · rw [if_neg hhead, if_neg hhead]
      cases placeholder rest with
      | none => rfl
      | some found => rfl

theorem dropWhile_plain (h : ∀ c ∈ s, c ≠ 37) : s.dropWhile (· != 37) = [] :=
  List.dropWhile_eq_nil_iff.mpr fun c hc => bne_iff_ne.mpr (h c hc)

theorem dropWhile_percent (h : ∀ c ∈ s, c ≠ 37) (rest : Bytes) : (s ++ 37 :: rest).dropWhile (· != 37) = 37 :: rest := by
  rw [List.dropWhile_append_of_pos fun c hc => bne_iff_ne.mpr (h c hc), List.dropWhile_cons_of_neg (by decide)]

/-- A text is plain up to its first percent sign. -/
theorem exists_plain (s : Bytes) : (∀ c ∈ s, c ≠ 37) ∨ ∃ a rest, s = a ++ 37 :: rest ∧ ∀ c ∈ a, c ≠ 37 := by
  cases h : s.dropWhile (· != 37) with
  | nil =>
    left
    intro c hc
    exact bne_iff_ne.mp (List.dropWhile_eq_nil_iff.mp h c hc)
  | cons c rest =>
    right
    have hsplit := List.takeWhile_append_dropWhile (p := fun c : UInt8 => c != 37) (l := s)
    have hhead := @List.head_dropWhile_not _ (fun c : UInt8 => c != 37) s (by rw [h]; exact List.cons_ne_nil _ _)
    simp only [h, List.head_cons, bne_eq_false_iff_eq] at hhead
    subst hhead
    rw [h] at hsplit
    refine ⟨s.takeWhile (· != 37), rest, hsplit.symm, fun c hc => ?_⟩
    have hne := @List.mem_takeWhile_imp _ (fun c : UInt8 => c != 37) s c hc
    exact bne_iff_ne.mp hne

theorem FormatItems.eq {items : List FormatItem} (h : FormatItems s items) : formatItems s = items := by
  induction h with
  | plain hplain => exact formatItems_nil (dropWhile_plain hplain)
  | percent hplain _ ih =>
    rw [formatItems_cons (dropWhile_percent hplain _), if_pos List.head?_cons, List.tail_cons, ih]
  | @place s ph rest kind items hplain hph _ ih =>
    have hfound := hph.found rest
    have hhead : (ph ++ rest).head? ≠ some 37 := by
      intro hpercent
      obtain ⟨c, t, rfl, hc⟩ := hph.head
      exact hc (Option.some.inj hpercent)
    rw [formatItems_cons (dropWhile_percent hplain _), if_neg hhead, hfound, Option.elim_some, List.drop_left, ih]
  | @bad s rest hplain hhead hno =>
    rw [formatItems_cons (dropWhile_percent hplain _), if_neg hhead]
    cases hfound : placeholder rest with
    | none => rfl
    | some found =>
      obtain ⟨kind, n⟩ := found
      obtain ⟨ph, rest', rfl, -, hph⟩ := of_placeholder hfound
      exact absurd (List.prefix_append ph rest') (hno kind ph hph)

theorem formatItems_holds (n : Nat) {s : Bytes} (hlen : s.length ≤ n) : FormatItems s (formatItems s) := by
  induction n using Nat.strong_induction_on generalizing s with
  | _ n ih =>
    rcases exists_plain s with hplain | ⟨a, rest, rfl, hplain⟩
    · rw [formatItems_nil (dropWhile_plain hplain)]
      exact .plain hplain
    · rw [List.length_append, List.length_cons] at hlen
      rw [formatItems_cons (dropWhile_percent hplain _)]
      by_cases hhead : rest.head? = some 37
      · rw [if_pos hhead]
        obtain ⟨t, rfl⟩ := List.head?_eq_some_iff.mp hhead
        rw [List.length_cons] at hlen
        exact .percent hplain (ih (n - 1) (by omega) (by omega))
      · rw [if_neg hhead]
        cases hfound : placeholder rest with
        | none =>
          refine .bad hplain hhead fun kind ph hph hpre => ?_
          obtain ⟨rest', rfl⟩ := hpre
          rw [hph.found rest'] at hfound
          cases hfound
        | some found =>
          obtain ⟨kind, m⟩ := found
          obtain ⟨ph, rest', rfl, rfl, hph⟩ := of_placeholder hfound
          rw [Option.elim_some, List.drop_left]
          rw [List.length_append] at hlen
          exact .place hplain hph (ih (n - 1) (by omega) (by omega))

end Items

/-! ## The parameters -/

theorem length_carved {par rest : Bytes} (h : (carveComma par).2 = some rest) : rest.length < par.length := by
  unfold carveComma at h
  split at h
  · next k hk =>
    obtain rfl := Option.some.inj h
    cases par with
    | nil => cases hk
    | cons c par =>
      rw [List.length_drop, List.length_cons]
      omega
  · cases h

/-- The parameters that a text has, one after the other. -/
def paramsOf (par : Bytes) : List Bytes :=
  (carveComma par).1 ::
    match _ : (carveComma par).2 with
    | some rest => paramsOf rest
    | none => []
termination_by par.length
decreasing_by
  next h => exact length_carved h

def params (comma : Option Bytes) : List Bytes := comma.elim [] paramsOf

theorem paramsOf_eq (par : Bytes) : paramsOf par = (carveComma par).1 :: params (carveComma par).2 := by
  rw [paramsOf]
  congr 1
  split
  · next rest h => rw [h]; rfl
  · next h => rw [h]; rfl

/-! ## The loop -/

def readItems (checks : Checks) : List FormatItem → List Bytes → FormatList → Except FormatFault FormatList
  | [], [], list => .ok list
  | [], _ :: _, _ => .error .reported
  | _ :: _, [], _ => .error .reported
  | .percent :: items, par :: ps, list => readItems checks items (par :: ps) list
  | .bad :: _, _ :: _, _ => .error .reported
  | .place kind :: items, par :: ps, list => do
    let text ← reported (checks.take kind par)
    let list ← list.add text
    readItems checks items ps list

/-- The parameters that are left, where the next one is cut off already if the last placeholder was a percent sign. -/
def parsLeft (perc : Bool) (par nc : Option Bytes) : List Bytes :=
  if perc then par.elim [] (· :: params nc) else params par

theorem carveNext_left (perc : Bool) (par nc : Option Bytes) :
    parsLeft perc par nc = (carveNext perc par nc).1.elim [] (· :: params (carveNext perc par nc).2) := by
  unfold parsLeft carveNext
  cases perc with
  | true => rfl
  | false =>
    rw [if_neg Bool.false_ne_true, if_neg Bool.false_ne_true]
    cases par with
    | none => rfl
    | some par => exact paramsOf_eq par

/-- The loop goes through the items of what is left of the format. -/
theorem formatLoop_items (checks : Checks) (fuel : Nat) {s : Bytes} {par nc : Option Bytes} {perc : Bool} {list : FormatList}
    (hfuel : s.length < fuel) :
    formatLoop checks fuel s par nc perc list = readItems checks (formatItems s) (parsLeft perc par nc) list := by
  induction fuel generalizing s par nc perc list with
  | zero => exact absurd hfuel (Nat.not_lt_zero _)
  | succ fuel ih =>
    unfold formatLoop
    rw [carveNext_left]
    dsimp only
    cases hnext : s.dropWhile (· != 37) with
    | nil =>
      rw [if_pos rfl, formatItems_nil hnext]
      cases (carveNext perc par nc).1 with
      | none => rfl
      | some p => rfl
    | cons c rest =>
      have hlt := length_percent hnext
      rw [if_neg (List.cons_ne_nil _ _), formatItems_cons hnext, List.tail_cons]
      cases (carveNext perc par nc).1 with
      | none =>
        dsimp only
        rw [Option.elim_none]
        by_cases hhead : rest.head? = some 37
        · rw [if_pos hhead]
          rfl
        · rw [if_neg hhead]
          cases placeholder rest with
          | none => rfl
          | some found => rfl
      | some p =>
        dsimp only
        rw [Option.elim_some]
        by_cases hhead : rest.head? = some 37
        · rw [if_pos hhead, if_pos hhead, ih (by rw [List.length_tail]; omega)]
          rfl
        · rw [if_neg hhead, if_neg hhead]
          cases placeholder rest with
          | none => rfl
          | some found =>
            obtain ⟨kind, n⟩ := found
            change (reported (checks.take kind p) >>= _) = (reported (checks.take kind p) >>= _)
            congr 1
            ext text : 1
            congr 1
            ext list : 1
            rw [ih (by rw [List.length_drop]; omega)]
            rfl

/-! ## What corresponds -/

/-- Each placeholder has a parameter that it takes, in order, and there is no other parameter. -/
inductive Takes (checks : Checks) : List FormatItem → List Bytes → List Bytes → Prop
  | done : Takes checks [] [] []
  | percent {items : List FormatItem} {ps texts : List Bytes} : Takes checks items ps texts →
      Takes checks (.percent :: items) ps texts
  | place {kind : ParamKind} {par text : Bytes} {items : List FormatItem} {ps texts : List Bytes} :
      checks.take kind par = some text → Takes checks items ps texts →
      Takes checks (.place kind :: items) (par :: ps) (text :: texts)

/-- The placeholders of a format correspond to parameters, of which these are the texts. -/
def Corresponds (checks : Checks) (format : Bytes) (ps texts : List Bytes) : Prop :=
  ∃ items, FormatItems format items ∧ Takes checks items ps texts

/-- The text of the parameters, each behind a comma. -/
def listText (texts : List Bytes) : Bytes := texts.flatMap listItem

/-- A format and its parameters are accepted just where they correspond, with the text of the parameters in the list, and
nothing is written elsewhere, whatever was in the memory of the list. -/
def FormatChecked (checks : Checks) (format : Bytes) (comma : Option Bytes) : Prop :=
  ∀ fresh,
    (∀ texts, Corresponds checks format (params comma) texts →
      ∃ l rest, checkFormat checks fresh format comma = .ok l ∧ l.block = listText texts ++ 0 :: rest) ∧
    ((¬ ∃ texts, Corresponds checks format (params comma) texts) → checkFormat checks fresh format comma = .error .reported)

/-- The texts of the parameters up to the first that is not taken. -/
def taken (checks : Checks) : List FormatItem → List Bytes → List Bytes
  | .percent :: items, par :: ps => taken checks items (par :: ps)
  | .place kind :: items, par :: ps =>
    match checks.take kind par with
    | some text => text :: taken checks items ps
    | none => []
  | _, _ => []

/-- Where the parameters correspond, there is one, no percent sign is behind the last placeholder, and their text has room
in the list. Where they do not, those that are taken have room, but for the last. -/
def FormatFits (checks : Checks) (format : Bytes) (comma : Option Bytes) : Prop :=
  ((∃ texts, Corresponds checks format (params comma) texts) →
      params comma ≠ [] ∧ (formatItems format).getLast? ≠ some .percent ∧
        (listText (taken checks (formatItems format) (params comma))).length < formatRoom format) ∧
    (listText (taken checks (formatItems format) (params comma)).dropLast).length ≤ formatRoom format

section Lists

variable {checks : Checks} {items : List FormatItem} {ps texts pre : List Bytes} {l : FormatList} {m : Nat}

theorem Takes.taken_eq (h : Takes checks items ps texts) : taken checks items ps = texts := by
  induction h with
  | done => rfl
  | @percent items ps texts h ih =>
    cases ps with
    | nil =>
      cases h with
      | done => rfl
      | percent h =>
        rw [← ih]
        rfl
    | cons par ps => exact ih
  | place htake _ ih =>
    rw [taken, htake]
    dsimp only
    rw [ih]

theorem Takes.length_eq (h : Takes checks items ps texts) : ps.length = texts.length := by
  induction h with
  | done => rfl
  | percent _ ih => exact ih
  | place _ _ ih => rw [List.length_cons, List.length_cons, ih]

/-- The placeholders and the parameters are taken together, and percent signs while there is a parameter. -/
inductive Accepts (checks : Checks) : List FormatItem → List Bytes → Prop
  | done : Accepts checks [] []
  | percent {items : List FormatItem} {par : Bytes} {ps : List Bytes} : Accepts checks items (par :: ps) →
      Accepts checks (.percent :: items) (par :: ps)
  | place {kind : ParamKind} {par text : Bytes} {items : List FormatItem} {ps : List Bytes} :
      checks.take kind par = some text → Accepts checks items ps → Accepts checks (.place kind :: items) (par :: ps)

theorem Accepts.takes (h : Accepts checks items ps) :
    Takes checks items ps (taken checks items ps) ∧ items.getLast? ≠ some .percent := by
  induction h with
  | done => exact ⟨.done, by simp⟩
  | @percent items par ps h ih =>
    refine ⟨.percent ih.1, ?_⟩
    cases h with
    | percent _ => exact ih.2
    | place _ _ => exact ih.2
  | @place kind par text items ps htake h ih =>
    refine ⟨?_, ?_⟩
    · rw [taken, htake]
      exact .place htake ih.1
    · cases items with
      | nil => simp
      | cons item items => exact ih.2

theorem Takes.accepts (h : Takes checks items ps texts) (hlast : items.getLast? ≠ some .percent) : Accepts checks items ps := by
  induction h with
  | done => exact .done
  | @percent items ps texts h ih =>
    cases items with
    | nil => exact absurd rfl hlast
    | cons item items =>
      have haccepts := ih hlast
      cases haccepts with
      | percent haccepts => exact .percent (.percent haccepts)
      | place htake haccepts => exact .percent (.place htake haccepts)
  | @place kind par text items ps texts htake _ ih =>
    refine .place htake ?_
    cases items with
    | nil => exact ih (by simp)
    | cons item items => exact ih hlast

/-- The list has `m` bytes and is as long as the texts; with a text, as long as they have room, they are in it. -/
structure Lists (l : FormatList) (m : Nat) (texts : List Bytes) : Prop where
  size : l.block.length = m
  len : l.clist = (listText texts).length
  text : texts ≠ [] → l.clist < m → ∃ rest, l.block = listText texts ++ 0 :: rest

theorem listText_snoc (texts : List Bytes) (text : Bytes) : listText (texts ++ [text]) = listText texts ++ listItem text := by
  unfold listText
  rw [List.flatMap_append, List.flatMap_singleton]

/-- A text is appended where the texts before it have room. -/
theorem Lists.add (h : Lists l m pre) (text : Bytes) (hroom : (listText pre).length ≤ m) :
    ∃ l', l.add text = .ok l' ∧ Lists l' m (pre ++ [text]) := by
  obtain ⟨hsize, hlen, htext⟩ := h
  have hbytes : (snprintfBytes (listItem text) (m - l.clist)).length ≤ m - l.clist := by
    unfold snprintfBytes
    split
    · exact Nat.zero_le _
    · rw [List.length_append, List.length_take, List.length_singleton]
      omega
  refine ⟨_, if_pos (by omega), ?_, ?_, fun _ hlt => ?_⟩
  · dsimp only
    rw [hsize, List.length_append, List.length_append, List.length_take, List.length_drop]
    omega
  · dsimp only
    rw [hlen, listText_snoc, List.length_append]
  · dsimp only at hlt ⊢
    have hwhole : snprintfBytes (listItem text) (l.block.length - l.clist) = listItem text ++ [0] := by
      unfold snprintfBytes
      rw [if_neg (by omega), List.take_of_length_le (by omega)]
    have hbefore : l.block.take l.clist = listText pre := by
      cases pre with
      | nil =>
        rw [hlen]
        rfl
      | cons t pre =>
        obtain ⟨rest, hblock⟩ := htext (List.cons_ne_nil _ _) (by omega)
        rw [hblock, hlen, List.take_left]
    refine ⟨l.block.drop (l.clist + (listItem text ++ [0]).length), ?_⟩
    rw [hwhole, hbefore, listText_snoc]
    simp only [List.append_assoc, List.cons_append, List.nil_append]

/-- Behind texts that have no room, nothing can be appended. -/
theorem Lists.outside (h : Lists l m pre) (text : Bytes) (hroom : m < (listText pre).length) : l.add text = .error .outside := by
  have hsize := h.size
  have hlen := h.len
  exact if_neg (by omega)

/-- Where what is taken has no room but for the last, something is written behind the end. -/
theorem readItems_outside (items : List FormatItem) {ps : List Bytes} (h : Lists l m pre)
    (hne : taken checks items ps ≠ []) (hroom : m < (listText (pre ++ (taken checks items ps).dropLast)).length) :
    readItems checks items ps l = .error .outside := by
  induction items generalizing ps l pre with
  | nil => exact absurd rfl hne
  | cons item items ih =>
    cases ps with
    | nil => cases item <;> exact absurd rfl hne
    | cons par ps =>
      cases item with
      | percent => exact ih h hne hroom
      | bad => exact absurd rfl hne
      | place kind =>
        cases htake : checks.take kind par with
        | none => exact absurd (by rw [taken, htake]) hne
        | some text =>
          have htaken : taken checks (.place kind :: items) (par :: ps) = text :: taken checks items ps := by
            rw [taken, htake]
          rw [htaken] at hroom
          rw [readItems, htake]
          change (l.add text >>= _) = _
          by_cases hpre : m < (listText pre).length
          · rw [h.outside text hpre]
            rfl
          · obtain ⟨l', hadd, hlists⟩ := h.add text (Nat.not_lt.mp hpre)
            rw [hadd, ok_bind]
            by_cases hlast : taken checks items ps = []
            · rw [hlast] at hroom
              exact absurd hroom (by simpa using hpre)
            · rw [List.dropLast_cons_of_ne_nil hlast, ← List.singleton_append, ← List.append_assoc] at hroom
              exact ih hlists hlast hroom

/-- Where what is taken has room, but for the last, the list is made if all is accepted, and an error reported if not. -/
theorem readItems_inside (items : List FormatItem) {ps : List Bytes} (h : Lists l m pre)
    (hroom : taken checks items ps ≠ [] → (listText (pre ++ (taken checks items ps).dropLast)).length ≤ m) :
    (Accepts checks items ps → ∃ l', readItems checks items ps l = .ok l' ∧ Lists l' m (pre ++ taken checks items ps)) ∧
      (¬ Accepts checks items ps → readItems checks items ps l = .error .reported) := by
  induction items generalizing ps l pre with
  | nil =>
    cases ps with
    | nil =>
      refine ⟨fun _ => ⟨l, rfl, ?_⟩, fun hno => absurd .done hno⟩
      have hnone : taken checks [] [] = [] := rfl
      rwa [hnone, List.append_nil]
    | cons par ps => exact ⟨fun haccepts => (by cases haccepts), fun _ => rfl⟩
  | cons item items ih =>
    cases ps with
    | nil => exact ⟨fun haccepts => (by cases haccepts), fun _ => (by cases item <;> rfl)⟩
    | cons par ps =>
      cases item with
      | percent =>
        obtain ⟨hyes, hno⟩ := @ih pre l (par :: ps) h hroom
        refine ⟨fun haccepts => ?_, fun hnot => hno fun haccepts => hnot (.percent haccepts)⟩
        cases haccepts with
        | percent haccepts => exact hyes haccepts
      | bad => exact ⟨fun haccepts => (by cases haccepts), fun _ => rfl⟩
      | place kind =>
        cases htake : checks.take kind par with
        | none =>
          refine ⟨fun haccepts => ?_, fun _ => ?_⟩
          · cases haccepts with
            | place hsome _ =>
              rw [htake] at hsome
              cases hsome
          · rw [readItems, htake]
            rfl
        | some text =>
          have htaken : taken checks (.place kind :: items) (par :: ps) = text :: taken checks items ps := by
            rw [taken, htake]
          rw [htaken] at hroom ⊢
          have hle := hroom (List.cons_ne_nil _ _)
          have hpre : (listText pre).length ≤ m := by
            unfold listText at hle ⊢
            rw [List.flatMap_append, List.length_append] at hle
            omega
          obtain ⟨l', hadd, hlists⟩ := h.add text hpre
          have hread : readItems checks (.place kind :: items) (par :: ps) l = readItems checks items ps l' := by
            rw [readItems, htake]
            change (l.add text >>= _) = _
            rw [hadd, ok_bind]
          have hmore : taken checks items ps ≠ [] →
              (listText (pre ++ [text] ++ (taken checks items ps).dropLast)).length ≤ m := by
            intro hne
            rw [List.dropLast_cons_of_ne_nil hne] at hle
            rwa [List.append_assoc, List.singleton_append]
          obtain ⟨hyes, hno⟩ := ih hlists hmore
          rw [hread]
          refine ⟨fun haccepts => ?_, fun hnot => hno fun haccepts => hnot (.place htake haccepts)⟩
          cases haccepts with
          | place _ haccepts =>
            obtain ⟨l'', hok, hlists'⟩ := hyes haccepts
            rw [List.append_assoc, List.singleton_append] at hlists'
            exact ⟨l'', hok, hlists'⟩

end Lists

/-! ## The whole check -/

section Whole

variable {checks : Checks} {format : Bytes} {comma : Option Bytes}

def startList (fresh : Nat → UInt8) (format : Bytes) : FormatList :=
  { block := (List.range (formatRoom format)).map fresh, clist := 0 }

theorem start_lists (fresh : Nat → UInt8) (format : Bytes) : Lists (startList fresh format) (formatRoom format) [] :=
  ⟨by rw [startList, List.length_map, List.length_range], rfl, fun hne => absurd rfl hne⟩

theorem checkFormat_items (checks : Checks) (fresh : Nat → UInt8) (format : Bytes) (comma : Option Bytes) :
    checkFormat checks fresh format comma =
      readItems checks (formatItems format) (params comma) (startList fresh format) :=
  formatLoop_items checks _ (Nat.lt_succ_self _)

theorem corresponds_iff {ps texts : List Bytes} :
    Corresponds checks format ps texts ↔ Takes checks (formatItems format) ps texts := by
  constructor
  · rintro ⟨items, hitems, htakes⟩
    rw [hitems.eq]
    exact htakes
  · exact fun htakes => ⟨_, formatItems_holds _ (Nat.le_refl _), htakes⟩

/-- Formats are checked exactly just where the parameters fit. -/
theorem formatChecked_iff (checks : Checks) (format : Bytes) (comma : Option Bytes) :
    FormatChecked checks format comma ↔ FormatFits checks format comma := by
  constructor
  · intro h
    have hinside : ∀ fresh, checkFormat checks fresh format comma ≠ .error .outside := by
      intro fresh
      obtain ⟨hyes, hno⟩ := h fresh
      by_cases hcorr : ∃ texts, Corresponds checks format (params comma) texts
      · obtain ⟨texts, htexts⟩ := hcorr
        obtain ⟨l, rest, hok, -⟩ := hyes texts htexts
        rw [hok]
        simp
      · rw [hno hcorr]
        simp
    have hlast : (listText (taken checks (formatItems format) (params comma)).dropLast).length ≤ formatRoom format := by
      by_contra hroom
      refine hinside (fun _ => 1) ?_
      rw [checkFormat_items]
      refine readItems_outside _ (start_lists _ _) ?_ (Nat.not_le.mp hroom)
      intro hnil
      rw [hnil] at hroom
      exact hroom (Nat.zero_le _)
    refine ⟨fun hcorr => ?_, hlast⟩
    obtain ⟨texts, htexts⟩ := hcorr
    -- the memory of the list is not empty before
    obtain ⟨l, rest, hok, hblock⟩ := (h fun _ => 1).1 texts htexts
    rw [checkFormat_items] at hok
    obtain ⟨hyes, hno⟩ := readItems_inside (formatItems format) (start_lists (fun _ => 1) format) fun _ => hlast
    have haccepts : Accepts checks (formatItems format) (params comma) := by
      by_contra hnot
      rw [hno hnot] at hok
      cases hok
    obtain ⟨l', hok', hlists⟩ := hyes haccepts
    obtain rfl := Except.ok.inj (hok.symm.trans hok')
    have htaken := (corresponds_iff.mp htexts).taken_eq
    refine ⟨fun hnone => ?_, haccepts.takes.2, ?_⟩
    · rw [hnone] at haccepts hok htexts
      have hitems : formatItems format = [] := by
        generalize formatItems format = items at haccepts
        cases haccepts
        rfl
      rw [hitems] at hok
      have hstart : startList (fun _ => 1) format = l := Except.ok.inj hok
      have hempty : texts = [] := by
        have htakes := corresponds_iff.mp htexts
        rw [hitems] at htakes
        cases htakes
        rfl
      rw [← hstart, hempty] at hblock
      have hroom : formatRoom format = (199 + format.length * 15) + 1 := by
        unfold formatRoom
        omega
      rw [startList, hroom, List.range_succ_eq_map, List.map_cons] at hblock
      exact absurd (List.cons.inj hblock).1 (by decide)
    · have hsize := hlists.size
      rw [hblock, List.length_append, List.length_cons] at hsize
      rw [htaken]
      omega
  · rintro ⟨hfits, hlast⟩ fresh
    obtain ⟨hyes, hno⟩ := readItems_inside (formatItems format) (start_lists fresh format) fun _ => hlast
    refine ⟨fun texts htexts => ?_, fun hcorr => ?_⟩
    · obtain ⟨hne, hpercent, hroom⟩ := hfits ⟨texts, htexts⟩
      have htakes := corresponds_iff.mp htexts
      obtain ⟨l, hok, hlists⟩ := hyes (htakes.accepts hpercent)
      rw [List.nil_append, htakes.taken_eq] at hlists
      rw [htakes.taken_eq] at hroom
      have hsome : texts ≠ [] := by
        rintro rfl
        exact hne (List.length_eq_zero_iff.mp htakes.length_eq)
      obtain ⟨rest, hblock⟩ := hlists.text hsome (by rw [hlists.len]; exact hroom)
      exact ⟨l, rest, (checkFormat_items _ _ _ _).trans hok, hblock⟩
    · rw [checkFormat_items]
      refine hno fun haccepts => hcorr ⟨_, corresponds_iff.mpr haccepts.takes.1⟩

end Whole

/-- Parameters that are string constants, all of them. -/
def constants : Checks where
  constant par := some (true, par)
  var _ := none

/-- For `%s%%` and one string an error is reported. -/
theorem formatChecked_not :
    checkFormat constants (fun _ => 0) (ascii "%s%%") (some (ascii "x")) = .error .reported ∧
      Corresponds constants (ascii "%s%%") [ascii "x"] [ascii "x"] ∧
      ¬ FormatChecked constants (ascii "%s%%") (some (ascii "x")) := by
  have hrun : checkFormat constants (fun _ => 0) (ascii "%s%%") (some (ascii "x")) = .error .reported := by decide +kernel
  have hcorr : Corresponds constants (ascii "%s%%") [ascii "x"] [ascii "x"] := by
    refine ⟨[.place .string, .percent], ?_, .place rfl (.percent .done)⟩
    have hplain : ∀ c ∈ ([] : Bytes), c ≠ 37 := fun _ h => by cases h
    have hdigits : ∀ c ∈ ([] : Bytes), isdigit c = true := fun _ h => by cases h
    exact .place hplain (.string hdigits) (.percent hplain (.plain hplain))
  refine ⟨hrun, hcorr, fun h => ?_⟩
  have hparams : params (some (ascii "x")) = [ascii "x"] := by
    have hcarved : carveComma (ascii "x") = (ascii "x", none) := by decide
    rw [params, Option.elim_some, paramsOf_eq, hcarved]
    rfl
  rw [← hparams] at hcorr
  obtain ⟨l, rest, hok, -⟩ := (h fun _ => 0).1 _ hcorr
  rw [hrun] at hok
  cases hok

end RimStone
