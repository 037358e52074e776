import Lisplet.Proofs.Token.Munch

namespace Lisplet

def Span.shift (n : Nat) (s : Span) : Span := ⟨s.start + n, s.stop + n⟩

def Token.shift (n : Nat) (t : Token) : Token := { t with span := t.span.shift n }

def ScanError.mapPosition (f : Nat → Nat) (e : ScanError) : ScanError :=
  { e with position := f e.position }

@[simp] theorem Token.toLexeme_shift (n : Nat) (t : Token) :
    (t.shift n).toLexeme = t.toLexeme := rfl

@[simp] theorem Token.position_shift (n : Nat) (t : Token) :
    (t.shift n).position = t.position + n := rfl

theorem Lead.token_add (lead : Lead) (pos n : Nat) (word : List Char) :
    lead.token (pos + n) word = (lead.token pos word).shift n := by
  simp only [token, Token.shift, Span.shift, Nat.add_right_comm]

theorem utf8ByteSize_ofList (cs : List Char) : (String.ofList cs).utf8ByteSize = utf8Length cs := by
  induction cs with
  | nil => rfl
  | cons c cs ih =>
    rw [String.ofList_cons, String.utf8ByteSize_append, String.utf8ByteSize_singleton, ih,
      utf8Length_cons]

theorem utf8Length_toList (s : String) : utf8Length s.toList = s.utf8ByteSize := by
  rw [← utf8ByteSize_ofList, String.ofList_toList]

theorem scanFrom_add (pos n : Nat) (cs : List Char) :
    scanFrom (pos + n) cs =
      ((scanFrom pos cs).map (List.map (Token.shift n))).mapError
        (ScanError.mapPosition (· + n)) := by
  induction pos, cs using scanFrom.induct with
  | case1 pos =>
    rw [scanFrom_nil, scanFrom_nil]
    rfl
  | case2 pos c cs hb ih =>
    rw [scanFrom_cons_blank hb, scanFrom_cons_blank hb, Nat.add_right_comm]
    exact ih
  | case3 pos c cs hb hc =>
    rw [scanFrom_cons_of_none (Bool.eq_false_iff.2 hb) hc,
      scanFrom_cons_of_none (Bool.eq_false_iff.2 hb) hc]
    rfl
  | case4 pos c cs hb lead hc word =>
    rename_i ih
    rw [scanFrom_cons_of_some (Bool.eq_false_iff.2 hb) hc,
      scanFrom_cons_of_some (Bool.eq_false_iff.2 hb) hc, Nat.add_right_comm, ih, Lead.token_add]
    cases scanFrom (pos + utf8Length word) (cs.dropWhile lead.takes) <;> rfl

theorem Text.takeWhile_append_of_head? {p : Char → Bool} {rest : List Char}
    (h : ∀ c ∈ rest.head?, p c = false) (cs : List Char) :
    (cs ++ rest).takeWhile p = cs.takeWhile p := by
  induction cs with
  | nil => exact takeWhile_append_of_stop (w := []) (by simp) h
  | cons c cs ih => simp only [List.cons_append, List.takeWhile_cons, ih]

theorem Text.dropWhile_append_of_head? {p : Char → Bool} {rest : List Char}
    (h : ∀ c ∈ rest.head?, p c = false) (cs : List Char) :
    (cs ++ rest).dropWhile p = cs.dropWhile p ++ rest := by
  induction cs with
  | nil => exact dropWhile_append_of_stop (w := []) (by simp) h
  | cons c cs ih =>
    simp only [List.cons_append, List.dropWhile_cons, ih]
    split <;> rfl

theorem scanFrom_append {rest : List Char} (h : ∀ c ∈ rest.head?, Text.isBlank c) (pos : Nat)
    (cs : List Char) :
    scanFrom pos (cs ++ rest) =
      (scanFrom pos cs).bind fun ts => (scanFrom (pos + utf8Length cs) rest).map (ts ++ ·) := by
  induction pos, cs using scanFrom.induct with
  | case1 pos =>
    rw [scanFrom_nil]
    change scanFrom pos rest = (scanFrom pos rest).map id
    cases scanFrom pos rest <;> rfl
  | case2 pos c cs hb ih =>
    rw [List.cons_append, scanFrom_cons_blank hb, scanFrom_cons_blank hb, ih, utf8Length_cons,
      Nat.add_assoc]
  | case3 pos c cs hb hc =>
    rw [List.cons_append, scanFrom_cons_of_none (Bool.eq_false_iff.2 hb) hc,
      scanFrom_cons_of_none (Bool.eq_false_iff.2 hb) hc]
    rfl
  | case4 pos c cs hb lead hc word =>
    rename_i ih
    have hstop : ∀ d ∈ rest.head?, lead.takes d = false :=
      fun d hd => Lead.takes_eq_false (h d hd) lead
    have hlength :
        utf8Length word + utf8Length (cs.dropWhile lead.takes) = utf8Length (c :: cs) := by
      rw [← utf8Length_append, List.cons_append, List.takeWhile_append_dropWhile]
    rw [List.cons_append, scanFrom_cons_of_some (Bool.eq_false_iff.2 hb) hc,
      scanFrom_cons_of_some (Bool.eq_false_iff.2 hb) hc, Text.takeWhile_append_of_head? hstop,
      Text.dropWhile_append_of_head? hstop, ih, Nat.add_assoc, hlength]
    cases scanFrom (pos + utf8Length word) (cs.dropWhile lead.takes) with
    | error e => rfl
    | ok ts => cases scanFrom (pos + utf8Length (c :: cs)) rest <;> rfl

theorem scan_append {s gap : String} {ts : List Token} (hs : scan s = .ok ts) (hne : gap ≠ "")
    (hgap : ∀ c ∈ gap.toList, Text.isBlank c) (t : String) :
    scan (s ++ gap ++ t) =
      ((scan t).map fun us =>
        ts ++ us.map (Token.shift (s.utf8ByteSize + gap.utf8ByteSize))).mapError
          (ScanError.mapPosition (· + (s.utf8ByteSize + gap.utf8ByteSize))) := by
  have hhead : ∀ c ∈ (gap.toList ++ t.toList).head?, Text.isBlank c := by
    cases hlist : gap.toList with
    | nil => exact absurd (String.toList_eq_nil_iff.1 hlist) hne
    | cons c cs =>
      rintro d ⟨⟩
      exact hgap c (by simp [hlist])
  rw [scan, String.toList_append, String.toList_append, List.append_assoc, scanFrom_append hhead,
    ← scan, hs, scanFrom_append_blank hgap, utf8Length_toList, utf8Length_toList, Nat.add_assoc,
    scanFrom_add, ← scan]
  cases scan t <;> rfl

end Lisplet
