import Lisplet.Token.Scan
import Mathlib.Data.List.Chain
import Mathlib.Data.List.TakeWhile
import Mathlib.Tactic.SplitIfs

/-!
Maximal munch: the tokens of a source are its one decomposition into literals and blank gaps in
which no two literals that touch could have been one.
-/

namespace Lisplet

def IsWord : List Char → Prop
  | [] => False
  | c :: cs => c.isAlpha ∧ ∀ d ∈ cs, isWordChar d

instance : DecidablePred IsWord
  | [] => inferInstanceAs (Decidable False)
  | c :: cs => decidable_of_iff (c.isAlpha && cs.all isWordChar) (by simp [IsWord])

theorem isWord_iff {cs : List Char} :
    IsWord cs ↔ ∃ c w, cs = c :: w ∧ c.isAlpha ∧ ∀ d ∈ w, isWordChar d := by
  cases cs with
  | nil => simp [IsWord]
  | cons c w => simp [IsWord]

theorem isWord_of_mem_keywords {s : String} (h : s ∈ keywords) : IsWord s.toList :=
  (by decide +kernel : ∀ k ∈ keywords, IsWord k.toList) s h

namespace Lexeme

def Legal (l : Lexeme) : Prop :=
  match l.kind with
  | .paren => l.literal ∈ ["(", ")"]
  | .number => l.literal ≠ "" ∧ ∀ c ∈ l.literal.toList, c.isDigit
  | .name => IsWord l.literal.toList ∧ l.literal ∉ keywords
  | .keyword => l.literal ∈ keywords
  | .operator => l.literal ∈ ["+", "-", "*", "/"]
  | .condOperator => l.literal ∈ ["<", ">", "="]

/-- Written right behind `l`, some of `m` would have belonged to `l`. -/
def Merges (l m : Lexeme) : Prop :=
  match l.kind with
  | .number => m.kind = .number
  | .name | .keyword => m.kind ∈ [.name, .keyword, .number] ∨ m = ⟨.operator, "-"⟩
  | .paren | .operator | .condOperator => False

end Lexeme

inductive Layout : Nat → List Char → List Token → Prop
  | blank {pos gap} : (∀ c ∈ gap, Text.isBlank c) → Layout pos gap []
  | token {pos gap cs t ts} : (∀ c ∈ gap, Text.isBlank c) →
      t.span = ⟨pos + utf8Length gap, pos + utf8Length gap + utf8Length t.literal.toList⟩ →
      Layout t.span.stop cs ts → Layout pos (gap ++ (t.literal.toList ++ cs)) (t :: ts)

def Token.Apart (t u : Token) : Prop :=
  t.span.stop = u.span.start → ¬ t.Merges u.toLexeme

namespace Text

theorem isBlank_eq_false_of_graphic {c : Char} (h : 33 ≤ c.toNat) (h' : c.toNat ≤ 126) :
    isBlank c = false := by
  simp only [isBlank, blankRanges, List.any_cons, List.any_nil, Bool.or_false,
    Bool.or_eq_false_iff, Bool.and_eq_false_imp, decide_eq_true_eq, decide_eq_false_iff_not]
  omega

theorem isAlpha_iff {c : Char} :
    c.isAlpha ↔ (65 ≤ c.toNat ∧ c.toNat ≤ 90) ∨ (97 ≤ c.toNat ∧ c.toNat ≤ 122) := by
  change (decide ('A'.val ≤ c.val ∧ c.val ≤ 'Z'.val) ||
    (decide ('a'.val ≤ c.val) && decide (c.val ≤ 'z'.val))) = true ↔ _
  simp [UInt32.le_iff_toNat_le]

theorem isDigit_iff {c : Char} : c.isDigit ↔ 48 ≤ c.toNat ∧ c.toNat ≤ 57 := by
  simp [Char.isDigit, UInt32.le_iff_toNat_le]

theorem isDigit_eq_false {c : Char} (h : c.isAlpha) : c.isDigit = false := by
  rw [isAlpha_iff] at h
  rw [Bool.eq_false_iff, Ne, isDigit_iff]
  omega

theorem takeWhile_append_of_stop {p : Char → Bool} {w rest : List Char} (hw : ∀ c ∈ w, p c)
    (hr : ∀ c ∈ rest.head?, p c = false) : (w ++ rest).takeWhile p = w := by
  rw [List.takeWhile_append_of_pos hw]
  cases rest with
  | nil => simp
  | cons c rest => simp [hr c rfl]

theorem dropWhile_append_of_stop {p : Char → Bool} {w rest : List Char} (hw : ∀ c ∈ w, p c)
    (hr : ∀ c ∈ rest.head?, p c = false) : (w ++ rest).dropWhile p = rest := by
  rw [List.dropWhile_append_of_pos hw]
  cases rest with
  | nil => rfl
  | cons c rest => simp [hr c rfl]

end Text

theorem isWordChar_iff {c : Char} :
    isWordChar c ↔ c.isAlpha ∨ c.isDigit ∨ c = '_' ∨ c = '-' := by
  simp [isWordChar, Char.isAlphanum, or_assoc]

theorem ne_paren_of_isWordChar {c : Char} (h : isWordChar c) : c ≠ '(' ∧ c ≠ ')' := by
  constructor
  · rintro rfl
    cases h
  · rintro rfl
    cases h

namespace Lead

def Starts : Lead → Char → Prop
  | .paren, c => c ∈ ['(', ')']
  | .digit, c => c.isDigit
  | .letter, c => c.isAlpha
  | .operator, c => c ∈ ['+', '-', '*', '/']
  | .comparison, c => c ∈ ['<', '>', '=']

theorem of?_eq_some_iff {c : Char} (lead : Lead) : Lead.of? c = some lead ↔ lead.Starts c := by
  constructor
  · intro h
    simp only [of?] at h
    split_ifs at h <;> cases h <;> assumption
  · intro h
    cases lead with simp only [Starts] at h
    | paren | operator | comparison =>
      simp only [List.mem_cons, List.not_mem_nil, or_false] at h
      rcases h with rfl | rfl | rfl | rfl <;> rfl
    | digit =>
      have hparen := ne_paren_of_isWordChar (isWordChar_iff.2 (.inr (.inl h)))
      simp [of?, hparen, h]
    | letter =>
      have hparen := ne_paren_of_isWordChar (isWordChar_iff.2 (.inl h))
      simp [of?, hparen, Text.isDigit_eq_false h, h]

theorem isBlank_eq_false {c : Char} {lead : Lead} (h : Lead.of? c = some lead) :
    Text.isBlank c = false := by
  rw [of?_eq_some_iff] at h
  cases lead with simp only [Starts] at h
  | paren | operator | comparison =>
    simp only [List.mem_cons, List.not_mem_nil, or_false] at h
    rcases h with rfl | rfl | rfl | rfl <;> decide
  | digit =>
    rw [Text.isDigit_iff] at h
    exact Text.isBlank_eq_false_of_graphic (by omega) (by omega)
  | letter =>
    rw [Text.isAlpha_iff] at h
    exact Text.isBlank_eq_false_of_graphic (by omega) (by omega)

theorem takes_eq_false {c : Char} (h : Text.isBlank c) (lead : Lead) : lead.takes c = false := by
  rw [Bool.eq_false_iff]
  intro ht
  have hb : Text.isBlank c = false := by
    cases lead with
    | paren | operator | comparison => cases ht
    | digit => exact isBlank_eq_false ((of?_eq_some_iff .digit).2 ht)
    | letter =>
      rcases isWordChar_iff.1 ht with ha | hd | rfl | rfl
      · exact isBlank_eq_false ((of?_eq_some_iff .letter).2 ha)
      · exact isBlank_eq_false ((of?_eq_some_iff .digit).2 hd)
      · rfl
      · rfl
  rw [hb] at h
  cases h

end Lead

def TokenKind.lead : TokenKind → Lead
  | .paren => .paren
  | .number => .digit
  | .name | .keyword => .letter
  | .operator => .operator
  | .condOperator => .comparison

@[simp] theorem Lead.lead_kind (lead : Lead) (s : String) : (lead.kind s).lead = lead := by
  cases lead with
  | letter => simp only [kind]; split <;> rfl
  | paren | digit | operator | comparison => rfl

theorem mem_singletons_iff {s : String} (lead : Lead) (cs : List Char)
    (h : ∀ d, lead.takes d = false) :
    s ∈ cs.map String.singleton ↔
      ∃ c w, s.toList = c :: w ∧ c ∈ cs ∧ ∀ d ∈ w, lead.takes d := by
  constructor
  · rintro hs
    obtain ⟨c, hc, rfl⟩ := List.mem_map.1 hs
    exact ⟨c, [], by simp, hc, by simp⟩
  · rintro ⟨c, w, hs, hc, hw⟩
    obtain rfl : w = [] := List.eq_nil_iff_forall_not_mem.2 fun d hd => by simpa [h] using hw d hd
    refine List.mem_map.2 ⟨c, hc, ?_⟩
    rw [← String.toList_inj, hs, String.toList_singleton]

namespace Lexeme

theorem legal_iff {l : Lexeme} :
    l.Legal ↔ ∃ c w, l.literal.toList = c :: w ∧ Lead.of? c = some l.kind.lead ∧
      (∀ d ∈ w, l.kind.lead.takes d) ∧ l.kind.lead.kind l.literal = l.kind := by
  obtain ⟨kind, literal⟩ := l
  simp only [Legal, Lead.of?_eq_some_iff]
  cases kind with
  | paren =>
    simpa [TokenKind.lead, Lead.kind, Lead.Starts] using
      mem_singletons_iff .paren ['(', ')'] fun _ => rfl
  | number =>
    simp only [TokenKind.lead, Lead.kind, and_true]
    constructor
    · rintro ⟨hne, hd⟩
      cases h : literal.toList with
      | nil => exact absurd (String.toList_eq_nil_iff.1 h) hne
      | cons c w => exact ⟨c, w, rfl, by simpa [h, Lead.takes, Lead.Starts] using hd⟩
    · rintro ⟨c, w, h, hd⟩
      refine ⟨?_, by simpa [h, Lead.takes, Lead.Starts] using hd⟩
      rintro rfl
      simp at h
  | name =>
    simp only [TokenKind.lead, Lead.kind, isWord_iff]
    constructor
    · rintro ⟨⟨c, w, h, hw⟩, hk⟩
      exact ⟨c, w, h, hw.1, hw.2, if_neg hk⟩
    · rintro ⟨c, w, h, hc, hw, hk⟩
      exact ⟨⟨c, w, h, hc, hw⟩, fun hm => by simp [hm] at hk⟩
  | keyword =>
    simp only [TokenKind.lead, Lead.kind]
    constructor
    · intro hk
      obtain ⟨c, w, h, hc, hw⟩ := isWord_iff.1 (isWord_of_mem_keywords hk)
      exact ⟨c, w, h, hc, hw, if_pos hk⟩
    · rintro ⟨c, w, h, hc, hw, hk⟩
      by_contra hm
      simp [hm] at hk
  | operator =>
    simpa [TokenKind.lead, Lead.kind, Lead.Starts] using
      mem_singletons_iff .operator ['+', '-', '*', '/'] fun _ => rfl
  | condOperator =>
    simpa [TokenKind.lead, Lead.kind, Lead.Starts] using
      mem_singletons_iff .comparison ['<', '>', '='] fun _ => rfl

theorem merges_iff {l m : Lexeme} {c : Char} {w : List Char} (hm : m.Legal)
    (h : m.literal.toList = c :: w) : l.Merges m ↔ l.kind.lead.takes c := by
  obtain ⟨d, v, hd, hc, hv, -⟩ := legal_iff.1 hm
  obtain ⟨rfl, rfl⟩ := List.cons.inj (h.symm.trans hd)
  obtain ⟨kind, literal⟩ := m
  have hdigit : c.isDigit ↔ kind = .number := by
    change Lead.Starts .digit c ↔ _
    rw [← Lead.of?_eq_some_iff, hc]
    cases kind <;> simp [TokenKind.lead]
  have halpha : c.isAlpha ↔ kind = .name ∨ kind = .keyword := by
    change Lead.Starts .letter c ↔ _
    rw [← Lead.of?_eq_some_iff, hc]
    cases kind <;> simp [TokenKind.lead]
  have hunder : c ≠ '_' := by
    rintro rfl
    cases hc
  have hdash : c = '-' ↔ kind = .operator ∧ literal = "-" := by
    constructor
    · rintro rfl
      cases kind <;> cases hc
      refine ⟨rfl, ?_⟩
      have hw : w = [] := List.eq_nil_iff_forall_not_mem.2 fun d hd => Bool.false_ne_true (hv d hd)
      rw [← String.toList_inj]
      simpa [hw] using h
    · rintro ⟨rfl, rfl⟩
      exact (List.cons.inj h).1.symm
  cases hl : l.kind with simp only [Merges, hl, TokenKind.lead, Lead.takes]
  | paren | operator | condOperator => simp
  | number => exact hdigit.symm
  | name | keyword =>
    rw [isWordChar_iff, halpha, hdigit, hdash]
    simp [hunder, or_assoc]

end Lexeme

theorem Lead.legal_token {lead : Lead} {c : Char} {w : List Char} (hc : Lead.of? c = some lead)
    (hw : ∀ d ∈ w, lead.takes d) (pos : Nat) : (lead.token pos (c :: w)).Legal := by
  rw [Lexeme.legal_iff]
  refine ⟨c, w, by simp [token], ?_, ?_, ?_⟩
  · simpa [token] using hc
  · simpa [token] using hw
  · simp [token]

theorem utf8Length_eq_zero {cs : List Char} (h : utf8Length cs = 0) : cs = [] := by
  cases cs with
  | nil => rfl
  | cons c cs =>
    have := c.utf8Size_pos
    simp only [utf8Length_cons] at h
    omega

namespace Layout

theorem cons_blank {pos : Nat} {c : Char} {cs : List Char} {ts : List Token}
    (hc : Text.isBlank c) (h : Layout (pos + c.utf8Size) cs ts) : Layout pos (c :: cs) ts := by
  cases h with
  | blank hg => exact .blank (by simpa [hc] using hg)
  | @token _ gap cs t ts hg hs h =>
    have hspan : t.span = ⟨pos + utf8Length (c :: gap),
        pos + utf8Length (c :: gap) + utf8Length t.literal.toList⟩ := by
      simpa [Nat.add_assoc] using hs
    exact @token _ (c :: gap) _ _ _ (by simpa [hc] using hg) hspan h

theorem touching {pos : Nat} {cs : List Char} {t : Token} {ts : List Token}
    (h : Layout pos cs (t :: ts)) (hpos : pos = t.span.start) :
    ∃ rest, cs = t.literal.toList ++ rest := by
  cases h with
  | @token _ gap rest _ _ _ hs =>
    obtain rfl : gap = [] := utf8Length_eq_zero (by simp [hs] at hpos; omega)
    exact ⟨rest, rfl⟩

theorem stops {t : Token} {cs : List Char} {ts : List Token} (h : Layout t.span.stop cs ts)
    (hl : ∀ u ∈ ts, u.Legal) (ha : ∀ u ∈ ts.head?, t.Apart u) :
    ∀ c ∈ cs.head?, t.kind.lead.takes c = false := by
  intro c hc
  cases h with
  | blank hg => exact Lead.takes_eq_false (hg c (List.mem_of_mem_head? hc)) _
  | @token _ gap cs u us hg hs =>
    cases gap with
    | cons g gap =>
      obtain rfl : g = c := Option.some.inj hc
      exact Lead.takes_eq_false (hg g List.mem_cons_self) _
    | nil =>
      have hu : u.Legal := hl u List.mem_cons_self
      obtain ⟨d, w, hd, -⟩ := Lexeme.legal_iff.1 hu
      obtain rfl : d = c := by simpa [hd] using hc
      have htouch : t.span.stop = u.span.start := by simp [hs]
      rw [Bool.eq_false_iff, Ne, ← Lexeme.merges_iff hu hd]
      exact ha u rfl htouch

end Layout

theorem layout_of_scanFrom {pos : Nat} {cs : List Char} {ts : List Token}
    (h : scanFrom pos cs = .ok ts) :
    Layout pos cs ts ∧ (∀ t ∈ ts, t.Legal) ∧ ts.IsChain Token.Apart := by
  induction pos, cs using scanFrom.induct generalizing ts with
  | case1 pos =>
    rw [scanFrom_nil] at h
    cases h
    exact ⟨.blank (by simp), by simp, by simp⟩
  | case2 pos c cs hb ih =>
    rw [scanFrom_cons_blank hb] at h
    obtain ⟨hlay, hl, ha⟩ := ih h
    exact ⟨hlay.cons_blank hb, hl, ha⟩
  | case3 pos c cs hb hc =>
    rw [scanFrom_cons_of_none (Bool.eq_false_iff.2 hb) hc] at h
    cases h
  | case4 pos c cs hb lead hc word =>
    rename_i ih
    rw [scanFrom_cons_of_some (Bool.eq_false_iff.2 hb) hc] at h
    cases hus : scanFrom (pos + utf8Length word) (cs.dropWhile lead.takes) with
    | error e => rw [hus] at h; cases h
    | ok us =>
      rw [hus] at h
      obtain rfl := Except.ok.inj h
      obtain ⟨hlay, hl, ha⟩ := ih hus
      have ht : (lead.token pos word).Legal :=
        Lead.legal_token hc (fun d hd => List.mem_takeWhile_imp (l := cs) hd) pos
      have hcs : c :: cs = (lead.token pos word).literal.toList ++ cs.dropWhile lead.takes := by
        simp [Lead.token, word]
      refine ⟨?_, List.forall_mem_cons.2 ⟨ht, hl⟩, List.isChain_cons.2 ⟨?_, ha⟩⟩
      · rw [hcs]
        exact @Layout.token _ [] _ _ _ (by simp) (by simp [Lead.token]) hlay
      · intro u hu htouch
        obtain ⟨us, rfl⟩ := List.head?_eq_some_iff.1 hu
        have hlegal : u.Legal := hl u List.mem_cons_self
        obtain ⟨d, w, hd, -⟩ := Lexeme.legal_iff.1 hlegal
        obtain ⟨rest, hrest⟩ := hlay.touching htouch
        have hstop := List.head?_dropWhile_not lead.takes cs
        rw [hrest, hd] at hstop
        rw [Lexeme.merges_iff hlegal hd]
        simpa [Lead.token] using hstop

theorem scanFrom_append_blank {gap : List Char} (h : ∀ c ∈ gap, Text.isBlank c) (pos : Nat)
    (cs : List Char) : scanFrom pos (gap ++ cs) = scanFrom (pos + utf8Length gap) cs := by
  induction gap generalizing pos with
  | nil => rfl
  | cons c gap ih =>
    rw [List.forall_mem_cons] at h
    rw [List.cons_append, scanFrom_cons_blank h.1, ih h.2, utf8Length_cons, Nat.add_assoc]

theorem scanFrom_of_layout {pos : Nat} {cs : List Char} {ts : List Token} (h : Layout pos cs ts)
    (hl : ∀ t ∈ ts, t.Legal) (ha : ts.IsChain Token.Apart) : scanFrom pos cs = .ok ts := by
  induction h with
  | blank hg => simpa using scanFrom_append_blank hg _ []
  | @token pos gap cs t ts hg hs h ih =>
    rw [List.forall_mem_cons] at hl
    rw [List.isChain_cons] at ha
    obtain ⟨c, w, hlit, hc, hw, hkind⟩ := Lexeme.legal_iff.1 hl.1
    have hstop := h.stops hl.2 ha.1
    rw [scanFrom_append_blank hg, hlit, List.cons_append,
      scanFrom_cons_of_some (Lead.isBlank_eq_false hc) hc, Text.takeWhile_append_of_stop hw hstop,
      Text.dropWhile_append_of_stop hw hstop, ← hlit]
    have ht : t.kind.lead.token (pos + utf8Length gap) t.literal.toList = t := by
      obtain ⟨⟨kind, literal⟩, span⟩ := t
      simp only at hkind hs
      simp [Lead.token, hkind, hs]
    have hend : pos + utf8Length gap + utf8Length t.literal.toList = t.span.stop := by rw [hs]
    rw [ht, hend, ih hl.2 ha.2]
    rfl

theorem scan_eq_ok_iff_layout (source : String) (tokens : List Token) :
    scan source = .ok tokens ↔
      Layout 0 source.toList tokens ∧ (∀ t ∈ tokens, t.Legal) ∧ tokens.IsChain Token.Apart := by
  constructor
  · exact layout_of_scanFrom
  · rintro ⟨h, hl, ha⟩
    exact scanFrom_of_layout h hl ha

end Lisplet
