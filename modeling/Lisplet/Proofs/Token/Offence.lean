import Lisplet.Proofs.Token.Munch
import Mathlib.Data.List.DropRight

/-!
Offences: the scan fails at the first character that may not stand where it does, and this shows on
the text right ahead of the character. Where the tokens before it were cut does not matter.
-/

namespace Lisplet

def InAlphabet (c : Char) : Prop :=
  Text.isBlank c ∨ c.isAlpha ∨ c.isDigit ∨ c = '_' ∨
    c ∈ ['(', ')', '+', '-', '*', '/', '<', '>', '=']

def EndsInWord (before : List Char) : Prop := ∃ c ∈ before.rtakeWhile isWordChar, c.isAlpha

def Offends (before : List Char) (c : Char) : Prop :=
  ¬ InAlphabet c ∨ c = '_' ∧ ¬ EndsInWord before

def OffendsAt (source : String) (c : Char) (pos : Nat) : Prop :=
  ∃ before after, source.toList = before ++ c :: after ∧ pos = utf8Length before ∧
    Offends before c

theorem inAlphabet_iff {c : Char} :
    InAlphabet c ↔ Text.isBlank c ∨ c = '_' ∨ ∃ lead, Lead.of? c = some lead := by
  constructor
  · rintro (hb | ha | hd | hu | hm)
    · exact .inl hb
    · exact .inr (.inr ⟨.letter, (Lead.of?_eq_some_iff .letter).2 ha⟩)
    · exact .inr (.inr ⟨.digit, (Lead.of?_eq_some_iff .digit).2 hd⟩)
    · exact .inr (.inl hu)
    · simp only [List.mem_cons, List.not_mem_nil, or_false] at hm
      right
      right
      rcases hm with rfl | rfl | rfl | rfl | rfl | rfl | rfl | rfl | rfl <;> exact ⟨_, rfl⟩
  · rintro (hb | hu | ⟨lead, h⟩)
    · exact .inl hb
    · exact .inr (.inr (.inr (.inl hu)))
    · rw [Lead.of?_eq_some_iff] at h
      cases lead with simp only [Lead.Starts] at h
      | letter => exact .inr (.inl h)
      | digit => exact .inr (.inr (.inl h))
      | paren | operator | comparison =>
        right; right; right; right
        simp only [List.mem_cons, List.not_mem_nil, or_false] at h ⊢
        tauto

theorem Lead.ne_underscore {c : Char} {lead : Lead} (h : Lead.of? c = some lead) : c ≠ '_' := by
  rintro rfl
  cases h

theorem offends_iff {before : List Char} {c : Char} :
    Offends before c ↔
      Text.isBlank c = false ∧ Lead.of? c = none ∧ (c = '_' → ¬ EndsInWord before) := by
  rw [Offends, inAlphabet_iff, Option.eq_none_iff_forall_ne_some]
  constructor
  · rintro (h | ⟨rfl, h⟩)
    · push Not at h
      exact ⟨Bool.eq_false_iff.2 h.1, h.2.2, fun hu => absurd hu h.2.1⟩
    · exact ⟨rfl, fun lead hl => Lead.ne_underscore hl rfl, fun _ => h⟩
  · rintro ⟨hb, hl, h⟩
    by_cases hu : c = '_'
    · exact .inr ⟨hu, h hu⟩
    · left
      rintro (hb' | hu' | ⟨lead, hlead⟩)
      · rw [hb] at hb'
        cases hb'
      · exact hu hu'
      · exact hl lead hlead

theorem not_offends_of_starts {c : Char} {lead : Lead} (h : Lead.of? c = some lead)
    (before : List Char) : ¬ Offends before c := by
  rw [offends_iff, h]
  rintro ⟨-, ⟨⟩, -⟩

theorem not_offends_of_endsInWord {before : List Char} {c : Char} (h : EndsInWord before)
    (hc : isWordChar c) : ¬ Offends before c := by
  rw [offends_iff]
  rintro ⟨-, hl, hu⟩
  rcases isWordChar_iff.1 hc with ha | hd | hu' | rfl
  · rw [(Lead.of?_eq_some_iff .letter).2 ha] at hl
    cases hl
  · rw [(Lead.of?_eq_some_iff .digit).2 hd] at hl
    cases hl
  · exact hu hu' h
  · cases hl

theorem endsInWord_concat {before : List Char} {c : Char} :
    EndsInWord (before ++ [c]) ↔ isWordChar c ∧ (c.isAlpha ∨ EndsInWord before) := by
  rw [EndsInWord, List.rtakeWhile_concat]
  by_cases hc : isWordChar c
  · simp [hc, EndsInWord, or_and_right, exists_or, or_comm]
  · simp [hc]

theorem endsInWord_of_append {before w : List Char} (hw : ∀ c ∈ w, c.isAlpha = false)
    (h : EndsInWord (before ++ w)) : EndsInWord before ∧ ∀ c ∈ w, isWordChar c := by
  induction w generalizing before with
  | nil => exact ⟨by simpa using h, by simp⟩
  | cons c w ih =>
    rw [List.forall_mem_cons] at hw
    rw [List.append_cons] at h
    obtain ⟨hc, hall⟩ := ih hw.2 h
    rw [endsInWord_concat, hw.1] at hc
    exact ⟨by simpa using hc.2, List.forall_mem_cons.2 ⟨hc.1, hall⟩⟩

def Harmless (before : List Char) : List Char → Prop
  | [] => True
  | c :: cs => ¬ Offends before c ∧ Harmless (before ++ [c]) cs

theorem harmless_append {before xs ys : List Char} :
    Harmless before (xs ++ ys) ↔ Harmless before xs ∧ Harmless (before ++ xs) ys := by
  induction xs generalizing before with
  | nil => simp [Harmless]
  | cons c xs ih => simp [Harmless, ih, and_assoc]

theorem harmless_of_endsInWord {before w : List Char} (h : EndsInWord before)
    (hw : ∀ c ∈ w, isWordChar c) : Harmless before w := by
  induction w generalizing before with
  | nil => trivial
  | cons c w ih =>
    rw [List.forall_mem_cons] at hw
    exact ⟨not_offends_of_endsInWord h hw.1, ih (endsInWord_concat.2 ⟨hw.1, .inr h⟩) hw.2⟩

theorem harmless_digits {w : List Char} (hw : ∀ c ∈ w, c.isDigit) (before : List Char) :
    Harmless before w := by
  induction w generalizing before with
  | nil => trivial
  | cons c w ih =>
    rw [List.forall_mem_cons] at hw
    exact ⟨not_offends_of_starts ((Lead.of?_eq_some_iff .digit).2 hw.1) before, ih hw.2 _⟩

def Parted (before cs : List Char) : Prop :=
  EndsInWord before → ∀ c ∈ cs.head?, isWordChar c = false

namespace Lead

variable {lead : Lead} {c : Char}

theorem isAlpha_eq_false (hne : lead ≠ .letter) (h : lead.takes c) : c.isAlpha = false := by
  cases lead with
  | letter => exact absurd rfl hne
  | digit =>
    rw [Bool.eq_false_iff]
    intro ha
    rw [takes, Text.isDigit_eq_false ha] at h
    cases h
  | paren | operator | comparison => cases h

theorem harmless_token {w : List Char} (hc : Lead.of? c = some lead)
    (hw : ∀ d ∈ w, lead.takes d) (before : List Char) : Harmless before (c :: w) := by
  refine ⟨not_offends_of_starts hc before, ?_⟩
  cases lead with
  | letter =>
    have ha : c.isAlpha := (of?_eq_some_iff .letter).1 hc
    exact harmless_of_endsInWord (endsInWord_concat.2 ⟨isWordChar_iff.2 (.inl ha), .inl ha⟩) hw
  | digit => exact harmless_digits hw _
  | paren | operator | comparison =>
    obtain rfl : w = [] := List.eq_nil_iff_forall_not_mem.2 fun d hd => Bool.false_ne_true (hw d hd)
    trivial

theorem parted_token {before cs : List Char} (hc : Lead.of? c = some lead)
    (h : Parted before (c :: cs)) :
    Parted (before ++ c :: cs.takeWhile lead.takes) (cs.dropWhile lead.takes) := by
  intro hword d hd
  by_cases hl : lead = .letter
  · -- the word itself stops where no word character follows
    subst hl
    have hstop := List.head?_dropWhile_not (takes .letter) cs
    rw [show (cs.dropWhile (takes .letter)).head? = some d from hd] at hstop
    exact hstop
  · -- without a letter of its own, the token only ends a word that was open ahead of it
    have halpha : ∀ e ∈ c :: cs.takeWhile lead.takes, e.isAlpha = false := by
      rw [List.forall_mem_cons]
      refine ⟨?_, fun e he => isAlpha_eq_false hl (List.mem_takeWhile_imp he)⟩
      rw [Bool.eq_false_iff]
      intro ha
      rw [(of?_eq_some_iff .letter).2 ha] at hc
      exact hl (Option.some.inj hc).symm
    obtain ⟨hbefore, hall⟩ := endsInWord_of_append halpha hword
    have hcut := h hbefore c rfl
    rw [hall c List.mem_cons_self] at hcut
    cases hcut

end Lead

def Tells (before cs : List Char) (pos : Nat) : Except ScanError α → Prop
  | .ok _ => Harmless before cs
  | .error e => ∃ clear rest, cs = clear ++ e.character :: rest ∧
      e.position = pos + utf8Length clear ∧ Harmless before clear ∧
      Offends (before ++ clear) e.character

namespace Tells

variable {before cs : List Char} {pos : Nat} {r : Except ScanError α}

theorem map (h : Tells before cs pos r) (f : α → β) : Tells before cs pos (r.map f) := by
  cases r <;> exact h

theorem prepend {xs : List Char} (hx : Harmless before xs)
    (h : Tells (before ++ xs) cs (pos + utf8Length xs) r) : Tells before (xs ++ cs) pos r := by
  cases r with
  | ok a => exact harmless_append.2 ⟨hx, h⟩
  | error e =>
    obtain ⟨clear, rest, rfl, hpos, hclear, he⟩ := h
    refine ⟨xs ++ clear, rest, by simp, ?_, harmless_append.2 ⟨hx, hclear⟩, ?_⟩
    · rw [hpos, utf8Length_append, Nat.add_assoc]
    · rwa [← List.append_assoc]

end Tells

theorem tells_scanFrom {before cs : List Char} (pos : Nat) (h : Parted before cs) :
    Tells before cs pos (scanFrom pos cs) := by
  induction pos, cs using scanFrom.induct generalizing before with
  | case1 pos =>
    rw [scanFrom_nil]
    trivial
  | case2 pos c cs hb ih =>
    rw [scanFrom_cons_blank hb]
    have hc : ¬ Offends before c := by simp [offends_iff, hb]
    have hparted : Parted (before ++ [c]) cs := by
      intro hword
      have hchar := (endsInWord_concat.1 hword).1
      rw [show isWordChar c = false from Lead.takes_eq_false hb .letter] at hchar
      cases hchar
    have hclear : Harmless before [c] := ⟨hc, trivial⟩
    exact (ih hparted).prepend hclear
  | case3 pos c cs hb hc =>
    rw [Bool.not_eq_true] at hb
    rw [scanFrom_cons_of_none hb hc]
    refine ⟨[], cs, rfl, rfl, trivial, ?_⟩
    rw [List.append_nil, offends_iff]
    refine ⟨hb, hc, ?_⟩
    -- a word ahead of an underscore would have taken it in
    rintro rfl hword
    cases h hword '_' rfl
  | case4 pos c cs hb lead hc word =>
    rename_i ih
    rw [Bool.not_eq_true] at hb
    rw [scanFrom_cons_of_some hb hc]
    apply Tells.map
    have hword : Harmless before word :=
      Lead.harmless_token hc (fun d hd => List.mem_takeWhile_imp hd) before
    have h := (ih (Lead.parted_token hc h)).prepend hword
    rwa [List.cons_append, List.takeWhile_append_dropWhile] at h

theorem Harmless.le_of_offends {clear rest before after : List Char} {c d : Char}
    (h : Harmless [] clear) (hsplit : clear ++ c :: rest = before ++ d :: after)
    (hd : Offends before d) : utf8Length clear ≤ utf8Length before := by
  obtain ⟨xs, rfl, -⟩ | ⟨xs, rfl, hxs⟩ := List.append_eq_append_iff.1 hsplit
  · rw [utf8Length_append]
    exact Nat.le_add_right _ _
  · cases xs with
    | nil => simp
    | cons x xs =>
      obtain ⟨rfl, -⟩ := List.cons.inj hxs
      exact absurd hd (harmless_append.1 h).2.1

theorem char_eq_of_utf8Length_eq {before after before' after' : List Char} {c d : Char}
    (hsplit : before ++ c :: after = before' ++ d :: after')
    (hlen : utf8Length before = utf8Length before') : c = d := by
  obtain ⟨xs, rfl, hxs⟩ | ⟨xs, rfl, hxs⟩ := List.append_eq_append_iff.1 hsplit
  · obtain rfl : xs = [] := utf8Length_eq_zero (by simpa using hlen)
    exact (List.cons.inj hxs).1
  · obtain rfl : xs = [] := utf8Length_eq_zero (by simpa using hlen)
    exact (List.cons.inj hxs).1.symm

theorem OffendsAt.char_eq {source : String} {c d : Char} {pos : Nat} (hc : OffendsAt source c pos)
    (hd : OffendsAt source d pos) : c = d := by
  obtain ⟨before, after, hsource, hpos, -⟩ := hc
  obtain ⟨before', after', hsource', hpos', -⟩ := hd
  exact char_eq_of_utf8Length_eq (hsource.symm.trans hsource') (hpos.symm.trans hpos')

theorem tells_scan (source : String) : Tells [] source.toList 0 (scan source) := by
  apply tells_scanFrom
  intro h
  simp [EndsInWord] at h

theorem not_offendsAt_of_scan {source : String} {tokens : List Token}
    (h : scan source = .ok tokens) (c : Char) (pos : Nat) : ¬ OffendsAt source c pos := by
  rintro ⟨before, after, hsource, -, hc⟩
  have htells := tells_scan source
  rw [h, hsource] at htells
  exact (harmless_append.1 htells).2.1 hc

theorem offendsAt_of_scan_error {source : String} {e : ScanError} (h : scan source = .error e) :
    OffendsAt source e.character e.position ∧ ∀ d q, OffendsAt source d q → e.position ≤ q := by
  have htells := tells_scan source
  rw [h] at htells
  obtain ⟨clear, rest, hsource, hpos, hclear, he⟩ := htells
  rw [Nat.zero_add] at hpos
  refine ⟨⟨clear, rest, hsource, hpos, he⟩, ?_⟩
  rintro d q ⟨before, after, hsource', rfl, hd⟩
  rw [hpos]
  exact hclear.le_of_offends (hsource.symm.trans hsource') hd

theorem scan_eq_error_iff_first_offence (source : String) :
    (∀ c pos, scan source = .error ⟨c, pos⟩ ↔
      OffendsAt source c pos ∧ ∀ d q, OffendsAt source d q → pos ≤ q) ∧
    ((∃ tokens, scan source = .ok tokens) ↔ ∀ c pos, ¬ OffendsAt source c pos) := by
  constructor
  · intro c pos
    constructor
    · intro h
      exact offendsAt_of_scan_error h
    · rintro ⟨hc, hmin⟩
      cases h : scan source with
      | ok tokens => exact absurd hc (not_offendsAt_of_scan h c pos)
      | error e =>
        obtain ⟨he, hmin'⟩ := offendsAt_of_scan_error h
        obtain rfl : pos = e.position := Nat.le_antisymm (hmin _ _ he) (hmin' _ _ hc)
        obtain rfl : c = e.character := hc.char_eq he
        rfl
  · constructor
    · rintro ⟨tokens, h⟩
      exact not_offendsAt_of_scan h
    · intro hnone
      cases h : scan source with
      | ok tokens => exact ⟨tokens, rfl⟩
      | error e => exact absurd (offendsAt_of_scan_error h).1 (hnone _ _)

/-- An underscore may follow a hyphen in a word, though not one behind a number. -/
example : scan "a-_ 1-_" = .error ⟨'_', 6⟩ := by decide +kernel

end Lisplet
