import Mathlib.Data.List.Basic
import RimStone.Memory.Chars

/-!
# Command lines

A command line is white space and words, and a word is bare text and quoted parts; a text without nulls that is
not one ends within a quote. Both are given by what they are written of, so that text and words can be compared.
-/

namespace RimStone

def Bare (c : UInt8) : Prop := c ≠ 0 ∧ c ≠ 34 ∧ c ≠ 39 ∧ isspace c = false

/-- A quoted part of a word, and the text after it. -/
structure QuotedPart where
  quote : UInt8
  inner : Bytes
  after : Bytes
  isQuote : quote = 34 ∨ quote = 39
  inner_ok : ∀ c ∈ inner, c ≠ quote ∧ c ≠ 0
  after_bare : ∀ c ∈ after, Bare c

def QuotedPart.text (p : QuotedPart) : Bytes := p.quote :: (p.inner ++ p.quote :: p.after)

def wordTail : Bytes → List QuotedPart → Bytes
  | lead, [] => lead
  | _, p :: parts => wordTail p.after parts

structure ArgWord where
  lead : Bytes
  parts : List QuotedPart
  lead_bare : ∀ c ∈ lead, Bare c
  nonempty : lead = [] → parts ≠ []

namespace ArgWord

def text (w : ArgWord) : Bytes := w.lead ++ w.parts.flatMap QuotedPart.text

def value (w : ArgWord) : Bytes := w.lead ++ w.parts.flatMap fun p => p.inner ++ p.after

def tail (w : ArgWord) : Bytes := wordTail w.lead w.parts

def Single (w : ArgWord) : Prop := w.parts = [] ∨ ∃ p, w.lead = [] ∧ w.parts = [p] ∧ p.after = []

end ArgWord

/-- White space, and words with the white space after each. -/
structure ArgLine where
  front : Bytes
  words : List (ArgWord × Bytes)
  front_space : ∀ c ∈ front, isspace c = true
  space : ∀ w ∈ words, ∀ c ∈ w.2, isspace c = true
  apart : ∀ w ∈ words.dropLast, w.2 ≠ []

namespace ArgLine

def text (l : ArgLine) : Bytes := l.front ++ l.words.flatMap fun w => w.1.text ++ w.2

def EndsBare (l : ArgLine) : Prop := ∃ w ∈ l.words.getLast?, w.2 = [] ∧ w.1.tail ≠ []

end ArgLine

/-- A line that ends within a quote: the words before, and what the last one has. -/
structure OpenLine where
  front : Bytes
  words : List (ArgWord × Bytes)
  lead : Bytes
  parts : List QuotedPart
  quote : UInt8
  inner : Bytes
  front_space : ∀ c ∈ front, isspace c = true
  space : ∀ w ∈ words, ∀ c ∈ w.2, isspace c = true
  apart : ∀ w ∈ words, w.2 ≠ []
  lead_bare : ∀ c ∈ lead, Bare c
  isQuote : quote = 34 ∨ quote = 39
  inner_ok : ∀ c ∈ inner, c ≠ quote ∧ c ≠ 0

def OpenLine.text (l : OpenLine) : Bytes :=
  l.front ++ ((l.words.flatMap fun w => w.1.text ++ w.2) ++ (l.lead ++ (l.parts.flatMap QuotedPart.text ++ l.quote :: l.inner)))

/-! ## Every text is a line -/

section Reading

theorem bare_or (c : UInt8) : c = 0 ∨ c = 34 ∨ c = 39 ∨ isspace c = true ∨ Bare c := by
  unfold Bare
  by_cases h0 : c = 0
  · exact .inl h0
  by_cases h34 : c = 34
  · exact .inr (.inl h34)
  by_cases h39 : c = 39
  · exact .inr (.inr (.inl h39))
  by_cases hs : isspace c = true
  · exact .inr (.inr (.inr (.inl hs)))
  · exact .inr (.inr (.inr (.inr ⟨h0, h34, h39, Bool.eq_false_iff.mpr hs⟩)))

/-- A text up to where a predicate fails. -/
theorem exists_span {α : Type} (p : α → Prop) (s : List α) :
    ∃ a b, s = a ++ b ∧ (∀ c ∈ a, p c) ∧ (b = [] ∨ ∃ x t, b = x :: t ∧ ¬ p x) := by
  induction s with
  | nil => exact ⟨[], [], rfl, fun c hc => absurd hc List.not_mem_nil, .inl rfl⟩
  | cons x s ih =>
    by_cases hx : p x
    · obtain ⟨a, b, rfl, ha, hb⟩ := ih
      exact ⟨x :: a, b, rfl, List.forall_mem_cons.mpr ⟨hx, ha⟩, hb⟩
    · exact ⟨[], x :: s, rfl, fun c hc => absurd hc List.not_mem_nil, .inr ⟨x, s, rfl, hx⟩⟩

inductive WordEnd : Bytes → Prop
  | stop : WordEnd []
  | space {x : UInt8} {s : Bytes} (h : isspace x = true) : WordEnd (x :: s)
  | within {q : UInt8} {inner : Bytes} (isQuote : q = 34 ∨ q = 39) (inner_ok : ∀ c ∈ inner, c ≠ q ∧ c ≠ 0) :
      WordEnd (q :: inner)

/-- A text begins with the parts of a word. -/
theorem exists_word (n : Nat) (s : Bytes) (hlen : s.length ≤ n) (hs : ∀ c ∈ s, c ≠ 0) :
    ∃ (lead : Bytes) (parts : List QuotedPart) (rest : Bytes),
      s = lead ++ (parts.flatMap QuotedPart.text ++ rest) ∧ (∀ c ∈ lead, Bare c) ∧ WordEnd rest := by
  induction n generalizing s with
  | zero =>
    obtain rfl := List.length_eq_zero_iff.mp (Nat.le_zero.mp hlen)
    exact ⟨[], [], [], rfl, fun c hc => absurd hc List.not_mem_nil, .stop⟩
  | succ n ih =>
    obtain ⟨lead, rest, rfl, hlead, rfl | ⟨x, t, rfl, hx⟩⟩ := exists_span Bare s
    · exact ⟨lead, [], [], rfl, hlead, .stop⟩
    have hquoted : (x = 34 ∨ x = 39) → ∃ (lead : Bytes) (parts : List QuotedPart) (rest : Bytes),
        x :: t = lead ++ (parts.flatMap QuotedPart.text ++ rest) ∧ (∀ c ∈ lead, Bare c) ∧ WordEnd rest ∧ lead = [] := by
      intro hquote
      obtain ⟨inner, u, rfl, hinner, rfl | ⟨y, u, rfl, hy⟩⟩ := exists_span (· ≠ x) t
      · rw [List.append_nil] at hs ⊢
        refine ⟨[], [], x :: inner, rfl, fun c hc => absurd hc List.not_mem_nil, .within hquote fun c hc => ?_, rfl⟩
        exact ⟨hinner c hc, hs c (List.mem_append_right _ (List.mem_cons_of_mem _ hc))⟩
      · obtain rfl : y = x := not_not.mp hy
        have hshort : u.length ≤ n := by
          simp only [List.length_append, List.length_cons] at hlen
          omega
        obtain ⟨after, parts, rest, rfl, hafter, hend⟩ := ih u hshort fun c hc =>
          hs c (List.mem_append_right _ (List.mem_cons_of_mem _ (List.mem_append_right _ (List.mem_cons_of_mem _ hc))))
        have hinner' : ∀ c ∈ inner, c ≠ y ∧ c ≠ 0 := fun c hc => ⟨hinner c hc,
          hs c (List.mem_append_right _ (List.mem_cons_of_mem _ (List.mem_append_left _ hc)))⟩
        refine ⟨[], ⟨y, inner, after, hquote, hinner', hafter⟩ :: parts, rest, ?_,
          fun c hc => absurd hc List.not_mem_nil, hend, rfl⟩
        simp only [List.flatMap_cons, QuotedPart.text, List.nil_append, List.cons_append, List.append_assoc]
    obtain h0 | h34 | h39 | hspace | hbare := bare_or x
    · exact absurd h0 (hs x (List.mem_append_right _ List.mem_cons_self))
    · obtain ⟨_, parts, rest, heq, _, hend, rfl⟩ := hquoted (.inl h34)
      exact ⟨lead, parts, rest, by rw [heq, List.nil_append], hlead, hend⟩
    · obtain ⟨_, parts, rest, heq, _, hend, rfl⟩ := hquoted (.inr h39)
      exact ⟨lead, parts, rest, by rw [heq, List.nil_append], hlead, hend⟩
    · exact ⟨lead, [], x :: t, rfl, hlead, .space hspace⟩
    · exact absurd hbare hx

/-- Text that begins with a byte other than white space, or is empty. -/
def NoBlank : Bytes → Prop
  | [] => True
  | x :: _ => isspace x = false

theorem ArgLine.exists_cons {l : ArgLine} (hl : l.front = []) (w : ArgWord) {blank : Bytes} (hblank : blank ≠ [])
    (hspace : ∀ c ∈ blank, isspace c = true) :
    ∃ l' : ArgLine, l'.front = [] ∧ l'.text = w.text ++ (blank ++ l.text) := by
  refine ⟨⟨[], (w, blank) :: l.words, fun c hc => absurd hc List.not_mem_nil,
    List.forall_mem_cons.mpr ⟨hspace, l.space⟩, ?_⟩, rfl, ?_⟩
  · cases hwords : l.words with
    | nil => exact fun w hw => absurd hw List.not_mem_nil
    | cons v words =>
      rw [List.dropLast_cons_of_ne_nil (List.cons_ne_nil _ _), ← hwords]
      exact List.forall_mem_cons.mpr ⟨hblank, l.apart⟩
  · simp only [ArgLine.text, hl, List.flatMap_cons, List.nil_append, List.append_assoc]

/-- A text without nulls is words, or ends within a quote. -/
theorem exists_words (n : Nat) (s : Bytes) (hlen : s.length ≤ n) (hs : ∀ c ∈ s, c ≠ 0) (hfresh : NoBlank s) :
    (∃ l : ArgLine, l.front = [] ∧ l.text = s) ∨ ∃ o : OpenLine, o.front = [] ∧ o.text = s := by
  have hnil : ∀ {p : UInt8 → Prop}, ∀ c ∈ ([] : Bytes), p c := fun c hc => absurd hc List.not_mem_nil
  induction n generalizing s with
  | zero =>
    obtain rfl := List.length_eq_zero_iff.mp (Nat.le_zero.mp hlen)
    exact .inl ⟨⟨[], [], hnil, fun w hw => absurd hw List.not_mem_nil, fun w hw => absurd hw List.not_mem_nil⟩, rfl, rfl⟩
  | succ n ih =>
    obtain ⟨lead, parts, rest, rfl, hlead, hend⟩ := exists_word s.length s (Nat.le_refl _) hs
    have hword : lead = [] → parts = [] → NoBlank rest := by
      rintro rfl rfl
      exact hfresh
    cases hend with
    | stop =>
      by_cases hempty : lead = [] ∧ parts = []
      · obtain ⟨rfl, rfl⟩ := hempty
        exact .inl ⟨⟨[], [], hnil, fun w hw => absurd hw List.not_mem_nil, fun w hw => absurd hw List.not_mem_nil⟩, rfl, rfl⟩
      · refine .inl ⟨⟨[], [(⟨lead, parts, hlead, fun h h' => hempty ⟨h, h'⟩⟩, [])], hnil, ?_, fun w hw => absurd hw List.not_mem_nil⟩,
          rfl, ?_⟩
        · exact List.forall_mem_cons.mpr ⟨hnil, fun w hw => absurd hw List.not_mem_nil⟩
        · simp only [ArgLine.text, ArgWord.text, List.flatMap_cons, List.flatMap_nil, List.nil_append, List.append_nil]
    | @space x t hx =>
      have hne : lead = [] → parts ≠ [] := by
        intro hl hp
        have hfalse : isspace x = false := hword hl hp
        rw [hx] at hfalse
        cases hfalse
      obtain ⟨blank, more, hsplit, hblank, hmore⟩ := exists_span (fun c => isspace c = true) (x :: t)
      have hblankNe : blank ≠ [] := by
        rintro rfl
        obtain rfl | ⟨y, u, rfl, hy⟩ := hmore
        · cases hsplit
        · obtain rfl := (List.cons.inj hsplit).1
          exact hy hx
      have hfreshMore : NoBlank more := by
        obtain rfl | ⟨y, u, rfl, hy⟩ := hmore
        · trivial
        · exact Bool.eq_false_iff.mpr hy
      have hshort : more.length ≤ n := by
        have hpos := List.length_pos_of_ne_nil hblankNe
        have := congrArg List.length hsplit
        simp only [List.length_append, List.length_cons] at this hlen
        omega
      have hmoreNull : ∀ c ∈ more, c ≠ 0 := fun c hc => hs c
        (List.mem_append_right _ (List.mem_append_right _ (hsplit ▸ List.mem_append_right _ hc)))
      rw [hsplit]
      obtain ⟨l, hl, rfl⟩ | ⟨o, ho, rfl⟩ := ih more hshort hmoreNull hfreshMore
      · obtain ⟨l', hl', htext⟩ := ArgLine.exists_cons hl ⟨lead, parts, hlead, hne⟩ hblankNe hblank
        exact .inl ⟨l', hl', by rw [htext, ArgWord.text, List.append_assoc]⟩
      · refine .inr ⟨{ o with words := (⟨lead, parts, hlead, hne⟩, blank) :: o.words, space := ?_, apart := ?_ }, ho, ?_⟩
        · exact List.forall_mem_cons.mpr ⟨hblank, o.space⟩
        · exact List.forall_mem_cons.mpr ⟨hblankNe, o.apart⟩
        · simp only [OpenLine.text, ArgWord.text, ho, List.flatMap_cons, List.nil_append, List.append_assoc]
    | @within q inner hquote hinner =>
      refine .inr ⟨⟨[], [], lead, parts, q, inner, hnil, fun w hw => absurd hw List.not_mem_nil,
        fun w hw => absurd hw List.not_mem_nil, hlead, hquote, hinner⟩, rfl, ?_⟩
      simp only [OpenLine.text, List.flatMap_nil, List.nil_append]

/-- A text without nulls is a line, or ends within a quote. -/
theorem exists_line (s : Bytes) (hs : ∀ c ∈ s, c ≠ 0) : (∃ l : ArgLine, l.text = s) ∨ ∃ o : OpenLine, o.text = s := by
  obtain ⟨front, body, rfl, hfront, hbody⟩ := exists_span (fun c => isspace c = true) s
  have hfresh : NoBlank body := by
    obtain rfl | ⟨y, u, rfl, hy⟩ := hbody
    · trivial
    · exact Bool.eq_false_iff.mpr hy
  obtain ⟨l, hl, rfl⟩ | ⟨o, ho, rfl⟩ := exists_words body.length body (Nat.le_refl _)
    (fun c hc => hs c (List.mem_append_right _ hc)) hfresh
  · exact .inl ⟨{ l with front, front_space := hfront }, by simp only [ArgLine.text, hl, List.nil_append]⟩
  · exact .inr ⟨{ o with front, front_space := hfront }, by simp only [OpenLine.text, ho, List.nil_append]⟩

end Reading

end RimStone
