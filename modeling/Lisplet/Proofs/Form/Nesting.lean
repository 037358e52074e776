import Lisplet.Proofs.Form.Diagnosis

namespace Lisplet

structure OpensAt (depth : Nat) (tokens : List Token) (k : Nat) (t : Token) : Prop where
  getElem? : tokens[k]? = some t
  opening : t.toLexeme = .opening
  balance : (tokens.take k).countP (·.isOpening) = (tokens.take k).countP (·.isClosing) + depth

structure FirstOpensAt (depth : Nat) (tokens : List Token) (k : Nat) (t : Token) : Prop
    extends OpensAt depth tokens k t where
  first : ∀ j < k, ∀ u, ¬ OpensAt depth tokens j u

def FailsBy (limit : Nat) (tokens : List Token) (k : Nat) : Prop :=
  ∃ e, parse tokens limit = .error e ∧ ∃ i ≤ k, FailsAt limit tokens e i

namespace OpensAt

variable {depth k : Nat} {tokens : List Token} {t : Token}

theorem lt_length (h : OpensAt depth tokens k t) : k < tokens.length :=
  (List.getElem?_eq_some_iff.1 h.getElem?).1

theorem depth_le (h : OpensAt depth tokens k t) : depth ≤ k := by
  have hcount : (tokens.take k).countP (·.isOpening) ≤ (tokens.take k).length :=
    List.countP_le_length
  have hlength := List.length_take_le k tokens
  have hbalance := h.balance
  omega

theorem unique {d : Nat} {u : Token} (h : OpensAt depth tokens k t) (h' : OpensAt d tokens k u) :
    depth = d := by
  have hbalance := h.balance
  have hbalance' := h'.balance
  omega

end OpensAt

theorem OpensAt.exists_first {depth k : Nat} {tokens : List Token} {t : Token}
    (h : OpensAt depth tokens k t) : ∃ j u, FirstOpensAt depth tokens j u := by
  induction k using Nat.strong_induction_on generalizing t with
  | _ k ih =>
    by_cases hfirst : ∃ j < k, ∃ u, OpensAt depth tokens j u
    · obtain ⟨j, hj, u, hu⟩ := hfirst
      exact ih j hj hu
    · exact ⟨k, t, h, fun j hj u hu => hfirst ⟨j, hj, u, hu⟩⟩

namespace ParseState

variable {limit bound : Nat} {s s' : ParseState} {t : Token}

/-- How many parentheses are open. The last of them has no frame until its head is read. -/
def depth (s : ParseState) : Nat :=
  match s.awaiting with
  | .form => s.frames.length
  | .head | .declaredName => s.frames.length + 1

theorem depth_of_form (ha : s.awaiting = .form) : s.depth = s.frames.length := by
  simp [depth, ha]

@[simp] theorem depth_add (s : ParseState) (f : Form) : (s.add f).depth = s.depth := by
  simp [depth]

theorem Moves.depth {l : Lexeme} (h : s.Moves limit l s') :
    s.depth + (if l.isOpening then 1 else 0) = s'.depth + (if l.isClosing then 1 else 0) := by
  cases h with
  | number ha | symbol ha => simp [Lexeme.opening, Lexeme.closing]
  | opening ha => simp [ParseState.depth, ha, Lexeme.opening, Lexeme.closing]
  | closing ha hs => simp [ParseState.depth, ha, hs, Lexeme.opening, Lexeme.closing]
  | call ha | cond ha | declare ha | defvar ha =>
    simp [ParseState.depth, ha, enter, Lexeme.opening, Lexeme.closing]
  | binary ha hk =>
    cases hk with
    | inl hk | inr hk => simp [ParseState.depth, ha, enter, hk, Lexeme.opening, Lexeme.closing]

theorem depth_of_run {ts : List Token} (h : s.run limit ts = .ok s') :
    s.depth + ts.countP (·.isOpening) = s'.depth + ts.countP (·.isClosing) := by
  induction ts generalizing s with
  | nil =>
    cases h
    rfl
  | cons t ts ih =>
    rw [run] at h
    cases hs : s.step limit t with
    | error e =>
      rw [hs] at h
      cases h
    | ok r =>
      rw [hs] at h
      have hstep := (moves_of_step hs).depth
      have hrest := ih h
      simp only [List.countP_cons]
      omega

theorem depth_pos_of_finish_error {e : ParseError} (h : s.finish = .error e) : 0 < s.depth := by
  obtain ⟨awaiting, frames, body⟩ := s
  cases awaiting with
  | head | declaredName => exact Nat.succ_pos _
  | form =>
    cases frames with
    | nil => cases h
    | cons => exact Nat.succ_pos _

theorem length_frames_le_of_run {ts : List Token} (h : run limit {} ts = .ok s) :
    s.frames.length ≤ limit := by
  have hc := consumed_of_run h
  generalize ts.map Token.toLexeme = ls at hc
  cases hc with
  | form _ hp => exact hp.length_le
  | head _ hlt | declaredName _ hlt => exact Nat.le_of_lt hlt

/-- Only for a parenthesis that opens a form does the limit matter. -/
theorem step_congr
    (h : s.awaiting = .form → t.toLexeme = .opening →
      s.frames.length < limit ∧ s.frames.length < bound) :
    s.step limit t = s.step bound t := by
  cases ha : s.awaiting with
  | head | declaredName => simp only [step, ha]
  | form =>
    simp only [step, ha, stepForm]
    by_cases ho : t.isOpening
    · obtain ⟨hlt, hlt'⟩ := h ha ((Lexeme.isOpening_iff _).1 ho)
      simp only [ho, hlt, hlt', if_true]
    · simp only [ho, Bool.false_eq_true, if_false]

theorem step_opening_of_le (ha : s.awaiting = .form) (ho : t.toLexeme = .opening)
    (hle : limit ≤ s.frames.length) :
    s.step limit t = .error (.nestingTooDeep limit t.position) := by
  have hkind : t.kind = .paren := congrArg Lexeme.kind ho
  have hopening : t.isOpening := (Lexeme.isOpening_iff _).2 ho
  simp [step, ha, stepForm, hkind, hopening, Nat.not_lt.2 hle]

theorem exists_step_opening_of_ne_form (ha : s.awaiting ≠ .form) (ho : t.toLexeme = .opening) :
    ∃ e, ∀ limit, s.step limit t = .error e := by
  have hkind : t.kind = .paren := congrArg Lexeme.kind ho
  cases h : s.awaiting with
  | form => exact absurd h ha
  | head => exact ⟨.unexpectedToken t.toLexeme t.position, by simp [step, h, stepHead, hkind]⟩
  | declaredName =>
    exact ⟨.expectedName t.toLexeme t.position, by simp [step, h, stepDeclaredName, hkind]⟩

theorem run_singleton (limit : Nat) (s : ParseState) (t : Token) :
    s.run limit [t] = s.step limit t := by
  rw [run]
  cases s.step limit t <;> rfl

theorem run_eq_or_deep (h : limit ≤ bound) (s : ParseState) (ts : List Token) :
    s.run bound ts = s.run limit ts ∨
      ∃ pos, s.run limit ts = .error (.nestingTooDeep limit pos) := by
  induction ts generalizing s with
  | nil => exact .inl rfl
  | cons t ts ih =>
    by_cases hdeep : s.awaiting = .form ∧ t.toLexeme = .opening ∧ limit ≤ s.frames.length
    · obtain ⟨ha, ho, hle⟩ := hdeep
      right
      exact ⟨t.position, by rw [run, step_opening_of_le ha ho hle]⟩
    · have hstep : s.step limit t = s.step bound t := by
        apply step_congr
        intro ha ho
        have hlt : s.frames.length < limit := Nat.lt_of_not_le fun hle => hdeep ⟨ha, ho, hle⟩
        exact ⟨hlt, Nat.lt_of_lt_of_le hlt h⟩
      rw [run, run, hstep]
      cases s.step bound t with
      | error e => exact .inl rfl
      | ok r => exact ih r

theorem opensAt_of_run {tokens : List Token} {k : Nat} (hs : run limit {} (tokens.take k) = .ok s)
    (ht : tokens[k]? = some t) (ho : t.toLexeme = .opening) : OpensAt s.depth tokens k t := by
  have hdepth := depth_of_run hs
  refine ⟨ht, ho, ?_⟩
  simpa [depth_of_form, Nat.add_comm] using hdepth

theorem run_take_congr {tokens : List Token} {n : Nat} (hbound : tokens.length ≤ bound)
    (h : ∀ j < n, ∀ u, ¬ OpensAt limit tokens j u) :
    run limit {} (tokens.take n) = run bound {} (tokens.take n) := by
  induction n with
  | zero => rfl
  | succ n ih =>
    have hn := ih fun j hj => h j (Nat.lt_succ_of_lt hj)
    cases ht : tokens[n]? with
    | none =>
      have hlength : tokens.length ≤ n := List.getElem?_eq_none_iff.1 ht
      rw [List.take_of_length_le hlength] at hn
      rwa [List.take_of_length_le (Nat.le_succ_of_le hlength)]
    | some t =>
      rw [List.take_add_one, ht, Option.toList_some, run_append, run_append, ← hn]
      cases hs : run limit {} (tokens.take n) with
      | error e => rfl
      | ok s =>
        change s.run limit [t] = s.run bound [t]
        rw [run_singleton, run_singleton]
        apply step_congr
        intro ha ho
        have hopens := opensAt_of_run hs ht ho
        rw [depth_of_form ha] at hopens
        have hne : s.frames.length ≠ limit := by
          intro heq
          exact h n (Nat.lt_succ_self n) t (heq ▸ hopens)
        have hle := length_frames_le_of_run hs
        have hdepth := hopens.depth_le
        have hlt := hopens.lt_length
        omega

end ParseState

section

variable {limit bound k : Nat} {tokens : List Token} {t : Token}

theorem parse_of_run_take_error {e : ParseError}
    (h : ParseState.run limit {} (tokens.take k) = .error e) : parse tokens limit = .error e := by
  rw [parse, ← List.take_append_drop k tokens, ParseState.run_append, h]
  rfl

theorem FailsAt.parse_eq {i : Nat} {e : ParseError} (h : FailsAt limit tokens e i) :
    parse tokens limit = .error e :=
  h.stable tokens (List.take_prefix (i + 1) tokens)

theorem failsBy_of_failsAt {i : Nat} {e : ParseError} (h : FailsAt limit tokens e i) (hi : i ≤ k) :
    FailsBy limit tokens k :=
  ⟨e, h.parse_eq, i, hi, h⟩

theorem failsBy_of_run_take_error {e : ParseError}
    (h : ParseState.run limit {} (tokens.take k) = .error e) : FailsBy limit tokens k := by
  obtain ⟨i, hi, r, hr, he⟩ := ParseState.run_eq_error h
  rw [List.length_take, Nat.lt_min] at hi
  rw [List.take_take, Nat.min_eq_left (Nat.le_of_lt hi.1)] at hr
  rw [List.getElem_take] at he
  exact failsBy_of_failsAt (failsAt_of_step hi.2 hr he) (Nat.le_of_lt hi.1)

theorem not_failsBy_of_run {s : ParseState}
    (h : ParseState.run limit {} (tokens.take (k + 1)) = .ok s) : ¬ FailsBy limit tokens k := by
  rintro ⟨e, -, i, hi, hfails⟩
  obtain ⟨us, hus, hp⟩ := accepted_of_run h
  have htake : tokens.take (i + 1) <+: tokens.take (k + 1) :=
    List.take_prefix_take_left (Nat.succ_le_succ hi)
  exact hfails.hopeless us hus (htake.trans hp)

theorem FirstOpensAt.parse_eq (hbound : tokens.length ≤ bound)
    (h : FirstOpensAt limit tokens k t) :
    (FailsBy bound tokens k ∧ parse tokens limit = parse tokens bound) ∨
      (¬ FailsBy bound tokens k ∧
        parse tokens limit = .error (.nestingTooDeep limit t.position)) := by
  have hrun := ParseState.run_take_congr hbound h.first
  obtain ⟨hk, ht⟩ := List.getElem?_eq_some_iff.1 h.getElem?
  cases hs : ParseState.run bound {} (tokens.take k) with
  | error e =>
    left
    have hfails := failsBy_of_run_take_error hs
    rw [parse_of_run_take_error hs, parse_of_run_take_error (hrun.trans hs)]
    exact ⟨hfails, rfl⟩
  | ok s =>
    have hs' := hrun.trans hs
    have hdepth := (ParseState.opensAt_of_run hs h.getElem? h.opening).unique h.toOpensAt
    by_cases ha : s.awaiting = .form
    · right
      -- A form may open here: the limit refuses what the bound lets through.
      rw [ParseState.depth_of_form ha] at hdepth
      have hstop := ParseState.step_opening_of_le ha h.opening (Nat.le_of_eq hdepth.symm)
      have hlt : s.frames.length < bound := by
        have hle := h.depth_le
        omega
      have hgo : ParseState.run bound {} (tokens.take (k + 1)) =
          .ok { s with awaiting := .head } := by
        rw [List.take_succ_eq_append_getElem hk, ht, ParseState.run_append_of_run hs]
        exact ParseState.run_cons_of_moves h.opening (.opening ha hlt) []
      rw [← ht] at hstop
      exact ⟨not_failsBy_of_run hgo, ht ▸ (failsAt_of_step hk hs' hstop).parse_eq⟩
    · left
      -- A head or a name is due, and no limit is asked before the parenthesis is refused.
      obtain ⟨e, he⟩ := ParseState.exists_step_opening_of_ne_form ha h.opening
      rw [← ht] at he
      have hfails := failsAt_of_step hk hs (he bound)
      have hfails' := failsAt_of_step hk hs' (he limit)
      exact ⟨failsBy_of_failsAt hfails (Nat.le_refl k), hfails'.parse_eq.trans hfails.parse_eq.symm⟩

theorem parse_of_not_opensAt (hbound : tokens.length ≤ bound)
    (h : ∀ k t, ¬ OpensAt limit tokens k t) : parse tokens limit = parse tokens bound := by
  have hrun := ParseState.run_take_congr (n := tokens.length) hbound fun j _ => h j
  rw [List.take_length] at hrun
  rw [parse, parse, hrun]

theorem parse_of_le (h : limit ≤ bound)
    (hdeep : ∀ pos, parse tokens limit ≠ .error (.nestingTooDeep limit pos)) :
    parse tokens bound = parse tokens limit := by
  cases ParseState.run_eq_or_deep h {} tokens with
  | inl hrun => rw [parse, parse, hrun]
  | inr hrun =>
    obtain ⟨pos, hpos⟩ := hrun
    exact absurd (by rw [parse, hpos]) (hdeep pos)

theorem parse_eq_ok_iff_depth_le {program : List Form} (h : parse tokens bound = .ok program) :
    parse tokens limit = .ok program ↔ ∀ f ∈ program, f.depth ≤ limit := by
  have hgram := grammatical_of_parse h
  constructor
  · intro hlimit
    exact (grammatical_of_parse hlimit).depth_le
  · intro hdepth
    exact parse_of_grammatical { hgram with depth_le := hdepth }

theorem parse_limit_exact (hbound : tokens.length ≤ bound) :
    (∀ k t, FirstOpensAt limit tokens k t → ¬ FailsBy bound tokens k →
      parse tokens limit = .error (.nestingTooDeep limit t.position)) ∧
    ((∀ k t, FirstOpensAt limit tokens k t → FailsBy bound tokens k) →
      parse tokens limit = parse tokens bound) ∧
    (∀ higher, limit ≤ higher →
      (∀ pos, parse tokens limit ≠ .error (.nestingTooDeep limit pos)) →
        parse tokens higher = parse tokens limit) ∧
    ∀ program, parse tokens bound = .ok program →
      (parse tokens limit = .ok program ↔ ∀ f ∈ program, f.depth ≤ limit) := by
  refine ⟨?deep, ?same, ?raise, fun program => parse_eq_ok_iff_depth_le⟩
  case deep =>
    intro k t hfirst hfails
    cases hfirst.parse_eq hbound with
    | inl h => exact absurd h.1 hfails
    | inr h => exact h.2
  case same =>
    intro h
    by_cases hopens : ∃ k t, OpensAt limit tokens k t
    · obtain ⟨k, t, hk⟩ := hopens
      obtain ⟨j, u, hfirst⟩ := hk.exists_first
      cases hfirst.parse_eq hbound with
      | inl heq => exact heq.2
      | inr hne => exact absurd (h j u hfirst) hne.1
    · apply parse_of_not_opensAt hbound
      intro k t hk
      exact hopens ⟨k, t, hk⟩
  case raise =>
    intro higher hle hdeep
    exact parse_of_le hle hdeep

theorem parse_limit_exact_nested :
    let tokens : List Token := [⟨.opening, ⟨0, 1⟩⟩, ⟨⟨.name, "f"⟩, ⟨1, 2⟩⟩, ⟨.opening, ⟨3, 4⟩⟩,
      ⟨⟨.name, "g"⟩, ⟨4, 5⟩⟩, ⟨.closing, ⟨5, 6⟩⟩, ⟨.closing, ⟨6, 7⟩⟩]
    tokens.length ≤ 6 ∧ parse tokens 1 = .error (.nestingTooDeep 1 3) ∧
      parse tokens 2 = .ok [.call "f" [.call "g" []]] := by
  intro tokens
  have hlength : tokens.length ≤ 6 := by decide
  have hparse : parse tokens 6 = .ok [.call "f" [.call "g" []]] := rfl
  have hfirst : FirstOpensAt 1 tokens 2 ⟨.opening, ⟨3, 4⟩⟩ := by
    refine ⟨⟨rfl, rfl, by decide⟩, ?_⟩
    intro j hj u h
    obtain rfl : j = 1 := Nat.le_antisymm (Nat.le_of_lt_succ hj) h.depth_le
    have hu : ⟨⟨.name, "f"⟩, ⟨1, 2⟩⟩ = u := Option.some.inj h.getElem?
    have hopening := h.opening
    rw [← hu] at hopening
    cases hopening
  have hfails : ¬ FailsBy 6 tokens 2 := by
    rintro ⟨e, he, -⟩
    rw [hparse] at he
    cases he
  have hdepth : ∀ f ∈ [Form.call "f" [.call "g" []]], f.depth ≤ 2 := by decide
  exact ⟨hlength, (parse_limit_exact hlength).1 2 _ hfirst hfails,
    ((parse_limit_exact hlength).2.2.2 _ hparse).2 hdepth⟩

end

end Lisplet
