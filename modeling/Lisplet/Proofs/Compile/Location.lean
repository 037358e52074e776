import Lisplet.Proofs.Compile.Stages
import Lisplet.Proofs.Form.Nesting
import Lisplet.Proofs.Token.Position

namespace Lisplet

def ParseError.Points (source : String) (limit : Nat) (tokens : List Token) : ParseError → Prop
  | unexpectedToken l pos | expectedName l pos =>
    StandsAt source l.literal pos ∧ ⟨l, ⟨pos, pos + l.literal.utf8ByteSize⟩⟩ ∈ tokens
  | unsupportedKeyword word pos =>
    StandsAt source word pos ∧ ⟨⟨.keyword, word⟩, ⟨pos, pos + word.utf8ByteSize⟩⟩ ∈ tokens
  | unknownOperator _ _ => False
  | missingInitializer name pos =>
    StandsAt source ")" pos ∧ ∃ before t u v after, tokens = before ++ t :: u :: v :: after ∧
      t.toLexeme = ⟨.keyword, "defvar"⟩ ∧ u.toLexeme = ⟨.name, name⟩ ∧
      v = ⟨.closing, ⟨pos, pos + 1⟩⟩
  | nestingTooDeep depth pos => depth = limit ∧ StandsAt source "(" pos
  | unexpectedEnd _ => tokens.countP (·.isClosing) < tokens.countP (·.isOpening)

def CompileError.Points (source : String) (limit : Nat) : CompileError → Prop
  | scan e => StandsAt source (String.singleton e.character) e.position
  | parse e => ∃ tokens, Lisplet.scan source = .ok tokens ∧ e.Points source limit tokens
  | render _ => False

theorem Lexeme.Legal.exists_operator {l : Lexeme} (h : l.Legal)
    (hk : l.kind = .operator ∨ l.kind = .condOperator) : Operator.ofSymbol? l.literal ≠ none := by
  obtain ⟨kind, literal⟩ := l
  obtain rfl | rfl := hk
  · simp only [Legal, List.mem_cons, List.not_mem_nil, or_false] at h
    rcases h with rfl | rfl | rfl | rfl <;> decide
  · simp only [Legal, List.mem_cons, List.not_mem_nil, or_false] at h
    rcases h with rfl | rfl | rfl <;> decide

section

variable {source : String} {tokens : List Token} {limit : Nat}

theorem eq_of_scan {t : Token} {l : Lexeme} (h : scan source = .ok tokens) (ht : t ∈ tokens)
    (hl : t.toLexeme = l) : t = ⟨l, ⟨t.position, t.position + l.literal.utf8ByteSize⟩⟩ := by
  have hstop := span_stop_of_scan h ht
  subst hl
  rw [← hstop]
  rfl

theorem points_of_refuses {s : ParseState} {i : Nat} {e : ParseError}
    (hscan : scan source = .ok tokens) (hi : i < tokens.length)
    (hrun : ParseState.run limit {} (tokens.take i) = .ok s) (he : s.Refuses limit tokens[i] e) :
    e.Points source limit tokens := by
  have hmem : tokens[i] ∈ tokens := List.getElem_mem hi
  have hstands := standsAt_of_scan hscan hmem
  cases he with
  | token | name => exact ⟨hstands, eq_of_scan hscan hmem rfl ▸ hmem⟩
  | keyword _ hk =>
    have hl : tokens[i].toLexeme = ⟨.keyword, tokens[i].literal⟩ := by rw [← hk]
    exact ⟨hstands, eq_of_scan hscan hmem hl ▸ hmem⟩
  | operator _ hk hop => exact (legal_of_scan hscan hmem).exists_operator hk hop
  | nesting _ ho =>
    rw [show tokens[i].literal = "(" from congrArg Lexeme.literal ho] at hstands
    exact ⟨rfl, hstands⟩
  | initializer ha hs hc =>
    rw [show tokens[i].literal = ")" from congrArg Lexeme.literal hc] at hstands
    obtain ⟨before, t, u, htake, ht, hu⟩ := ParseState.exists_declared_of_run hrun ha hs
    refine ⟨hstands, before, t, u, tokens[i], tokens.drop (i + 1), ?_, ht, hu, ?_⟩
    · calc tokens
        _ = tokens.take i ++ tokens.drop i := (List.take_append_drop i tokens).symm
        _ = (before ++ [t, u]) ++ tokens[i] :: tokens.drop (i + 1) := by
          rw [htake, List.drop_eq_getElem_cons hi]
        _ = before ++ t :: u :: tokens[i] :: tokens.drop (i + 1) := by
          rw [List.append_assoc]
          rfl
    · exact eq_of_scan hscan hmem hc

theorem points_of_parse_error {e : ParseError} (hscan : scan source = .ok tokens)
    (h : parse tokens limit = .error e) : e.Points source limit tokens := by
  obtain ⟨s, hrun, hfinish⟩ | ⟨i, hi, s, hrun, he⟩ := parse_eq_error h
  · obtain ⟨expected, rfl⟩ := ParseState.finish_eq_error hfinish
    have hdepth := ParseState.depth_of_run hrun
    have hpos := ParseState.depth_pos_of_finish_error hfinish
    change tokens.countP _ < tokens.countP _
    have hinit : ParseState.depth {} = 0 := rfl
    omega
  · exact points_of_refuses hscan hi hrun he

theorem StandsAt.of_points {e : CompileError} {pos : Nat} (h : e.Points source limit)
    (hpos : e.position? = some pos) : ∃ text ≠ "", StandsAt source text pos := by
  cases e with
  | render => cases h
  | scan e =>
    cases hpos
    exact ⟨_, by simp, h⟩
  | parse e =>
    obtain ⟨tokens, hscan, h⟩ := h
    cases e with
    | unknownOperator => cases h
    | unexpectedEnd => cases hpos
    | unexpectedToken | expectedName | unsupportedKeyword =>
      cases hpos
      exact ⟨_, (legal_of_scan hscan h.2).literal_ne_empty, h.1⟩
    | missingInitializer =>
      cases hpos
      exact ⟨_, by decide, h.1⟩
    | nestingTooDeep =>
      cases hpos
      exact ⟨_, by decide, h.2⟩

end

theorem compile_error_points {source : String} {o : Options} {e : CompileError}
    (h : compile source o = .error e) :
    (∀ pos, e.position? = some pos →
      pos < source.utf8ByteSize ∧ (String.Pos.Raw.mk pos).IsValid source) ∧
    e.Points source o.maxDepth := by
  rw [compile_eq_error_iff, compileStages_eq_error_iff] at h
  have hpoints : e.Points source o.maxDepth := by
    obtain ⟨d, rfl, hd⟩ | ⟨tokens, d, rfl, hscan, hd⟩ := h
    · exact standsAt_of_scan_error hd
    · exact ⟨tokens, hscan, points_of_parse_error hscan hd⟩
  refine ⟨?_, hpoints⟩
  intro pos hpos
  obtain ⟨text, hne, hstands⟩ := StandsAt.of_points hpoints hpos
  exact ⟨hstands.lt_utf8ByteSize hne, hstands.isValid⟩

theorem compile_error_points_wide_blank :
    compile "\u2003(f (defvar x))" {} = .error (.parse (.missingInitializer "x" 15)) ∧
      15 < "\u2003(f (defvar x))".utf8ByteSize ∧
      (String.Pos.Raw.mk 15).IsValid "\u2003(f (defvar x))" ∧
      StandsAt "\u2003(f (defvar x))" ")" 15 := by
  have h : compile "\u2003(f (defvar x))" {} = .error (.parse (.missingInitializer "x" 15)) := by
    decide +kernel
  obtain ⟨hpos, -, -, hstands, -⟩ := compile_error_points h
  obtain ⟨hlt, hvalid⟩ := hpos 15 rfl
  exact ⟨h, hlt, hvalid, hstands⟩

end Lisplet
