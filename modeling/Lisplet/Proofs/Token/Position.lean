import Lisplet.Proofs.Token.Offence
import Lisplet.Proofs.Token.Relocation

namespace Lisplet

def StandsAt (source text : String) (pos : Nat) : Prop :=
  ∃ before after, source = before ++ text ++ after ∧ pos = before.utf8ByteSize

namespace StandsAt

variable {source text : String} {pos : Nat}

theorem isValid (h : StandsAt source text pos) : (String.Pos.Raw.mk pos).IsValid source := by
  obtain ⟨before, after, rfl, rfl⟩ := h
  rw [String.Pos.Raw.isValid_iff_exists_append]
  exact ⟨before, text ++ after, String.append_assoc, rfl⟩

theorem lt_utf8ByteSize (h : StandsAt source text pos) (hne : text ≠ "") :
    pos < source.utf8ByteSize := by
  obtain ⟨before, after, rfl, rfl⟩ := h
  have hpos : 0 < text.utf8ByteSize := Nat.pos_of_ne_zero (mt String.utf8ByteSize_eq_zero_iff.1 hne)
  rw [String.utf8ByteSize_append, String.utf8ByteSize_append]
  omega

theorem of_toList {before after : List Char}
    (h : source.toList = before ++ (text.toList ++ after)) :
    StandsAt source text (utf8Length before) := by
  refine ⟨String.ofList before, String.ofList after, ?_, ?_⟩
  · rw [← String.toList_inj, h]
    simp
  · rw [← utf8Length_toList, String.toList_ofList]

end StandsAt

theorem Layout.exists_append {pos : Nat} {cs : List Char} {ts : List Token} {t : Token}
    (h : Layout pos cs ts) (ht : t ∈ ts) :
    ∃ before after, cs = before ++ (t.literal.toList ++ after) ∧
      t.span.start = pos + utf8Length before ∧
      t.span.stop = t.span.start + utf8Length t.literal.toList := by
  induction h with
  | blank => cases ht
  | @token pos gap cs u ts _ hs _ ih =>
    cases ht with
    | head => exact ⟨gap, cs, rfl, by rw [hs], by rw [hs]⟩
    | tail _ ht =>
      obtain ⟨before, after, rfl, hstart, hstop⟩ := ih ht
      refine ⟨gap ++ (u.literal.toList ++ before), after, by simp, ?_, hstop⟩
      have hend : u.span.stop = pos + utf8Length gap + utf8Length u.literal.toList := by rw [hs]
      rw [hstart, hend, utf8Length_append, utf8Length_append, Nat.add_assoc, Nat.add_assoc]

section

variable {source : String} {tokens : List Token} {t : Token}

theorem standsAt_of_scan_error {e : ScanError} (h : scan source = .error e) :
    StandsAt source (String.singleton e.character) e.position := by
  obtain ⟨⟨before, after, hsource, hpos, -⟩, -⟩ := offendsAt_of_scan_error h
  rw [hpos]
  exact .of_toList (by simpa using hsource)

theorem standsAt_of_scan (h : scan source = .ok tokens) (ht : t ∈ tokens) :
    StandsAt source t.literal t.position := by
  obtain ⟨before, after, hsource, hstart, -⟩ := (layout_of_scanFrom h).1.exists_append ht
  rw [Token.position, hstart, Nat.zero_add]
  exact .of_toList hsource

theorem span_stop_of_scan (h : scan source = .ok tokens) (ht : t ∈ tokens) :
    t.span.stop = t.position + t.literal.utf8ByteSize := by
  obtain ⟨-, -, -, -, hstop⟩ := (layout_of_scanFrom h).1.exists_append ht
  rw [hstop, utf8Length_toList, Token.position]

theorem legal_of_scan (h : scan source = .ok tokens) (ht : t ∈ tokens) : t.Legal :=
  (layout_of_scanFrom h).2.1 t ht

end

theorem Lexeme.Legal.literal_ne_empty {l : Lexeme} (h : l.Legal) : l.literal ≠ "" := by
  obtain ⟨c, w, hl, -⟩ := legal_iff.1 h
  intro he
  rw [he] at hl
  cases hl

end Lisplet
