import Lisplet.Proofs.Compile.Stages
import Lisplet.Proofs.Form.Relocation

namespace Lisplet

namespace CompileError

def mapPosition (f : Nat → Nat) : CompileError → CompileError
  | scan e => scan (e.mapPosition f)
  | parse e => parse (e.mapPosition f)
  | render e => render e

theorem position?_mapPosition (f : Nat → Nat) (e : CompileError) :
    (e.mapPosition f).position? = e.position?.map f := by
  cases e with
  | scan | render => rfl
  | parse e => exact e.position?_mapPosition f

end CompileError

theorem intercalate_append (sep : String) (xs ys : List String) :
    sep.intercalate (xs ++ ys) =
      if xs.isEmpty then sep.intercalate ys
      else if ys.isEmpty then sep.intercalate xs
      else sep.intercalate xs ++ sep ++ sep.intercalate ys := by
  cases xs with
  | nil => rfl
  | cons x xs =>
    cases ys with
    | nil => simp
    | cons y ys => exact String.intercalate_append_of_ne_nil (by simp) (by simp)

theorem compileStages_append {s gap : String} {o : Options} {a : Stages}
    (ha : compileStages s o = .ok a) (hne : gap ≠ "") (hgap : ∀ c ∈ gap.toList, Text.isBlank c)
    (t : String) :
    (∀ b, compileStages t o = .ok b →
      compileStages (s ++ gap ++ t) o = .ok
        { tokens := a.tokens ++ b.tokens.map (Token.shift (s.utf8ByteSize + gap.utf8ByteSize))
          forms := a.forms ++ b.forms
          code := a.code ++ b.code
          output :=
            if a.forms.isEmpty then b.output
            else if b.forms.isEmpty then a.output
            else a.output ++ "\n" ++ b.output }) ∧
    ∀ e, compileStages t o = .error e →
      compileStages (s ++ gap ++ t) o =
        .error (e.mapPosition (· + (s.utf8ByteSize + gap.utf8ByteSize))) := by
  obtain ⟨hs, hp, hl, -⟩ := compileStages_eq_ok_iff.1 ha
  have hscan := scan_append hs hne hgap t
  have hparse := parse_append hp (s.utf8ByteSize + gap.utf8ByteSize)
  constructor
  · intro b hb
    obtain ⟨hsb, hpb, hlb, -⟩ := compileStages_eq_ok_iff.1 hb
    have hforms := hparse b.tokens
    rw [hsb] at hscan
    rw [hpb] at hforms
    rw [compileStages_of_parse hscan hforms, lower_append, List.map_append,
      intercalate_append, List.isEmpty_map, List.isEmpty_map, hl, hlb, ← Stages.output_eq ha,
      ← Stages.output_eq hb]
  · intro e he
    obtain ⟨d, rfl, hd⟩ | ⟨us, d, rfl, hus, hd⟩ := compileStages_eq_error_iff.1 he
    · rw [hd] at hscan
      exact compileStages_of_scan_error hscan
    · have hfails := hparse us
      rw [hus] at hscan
      rw [hd] at hfails
      exact compileStages_of_parse_error hscan hfails

/-- The blank has three bytes, in two characters. -/
theorem compileStages_append_wide_blank : ∃ a b,
    compileStages "(f) x" {} = .ok a ∧ "\u00a0\n" ≠ "" ∧
      (∀ c ∈ "\u00a0\n".toList, Text.isBlank c) ∧
      compileStages "(g 1)" {} = .ok b ∧ b.output = "g(1);" ∧
      compileStages ("(f) x" ++ "\u00a0\n" ++ "(g 1)") {} = .ok
        { tokens := a.tokens ++ b.tokens.map (Token.shift 8)
          forms := a.forms ++ b.forms
          code := a.code ++ b.code
          output := "f();\nx\ng(1);" } ∧
      compileStages "(defvar y)" {} = .error (.parse (.missingInitializer "y" 9)) ∧
      compileStages ("(f) x" ++ "\u00a0\n" ++ "(defvar y)") {} =
        .error (.parse (.missingInitializer "y" 17)) := by
  have hcompile : compile "(f) x" {} = .ok "f();\nx" := by decide +kernel
  have hcompile' : compile "(g 1)" {} = .ok "g(1);" := by decide +kernel
  have hfails : compile "(defvar y)" {} = .error (.parse (.missingInitializer "y" 9)) := by
    decide +kernel
  obtain ⟨a, ha, houta⟩ := compile_eq_ok_iff.1 hcompile
  obtain ⟨b, hb, houtb⟩ := compile_eq_ok_iff.1 hcompile'
  have hne : "\u00a0\n" ≠ "" := by decide
  have hgap : ∀ c ∈ "\u00a0\n".toList, Text.isBlank c := by
    simpa using (by decide : Text.isBlank '\u00a0' ∧ Text.isBlank '\n')
  rw [compile_eq_error_iff] at hfails
  have hforms := Stages.forms_ne_nil ha (by rw [houta]; decide)
  have hforms' := Stages.forms_ne_nil hb (by rw [houtb]; decide)
  have happend := (compileStages_append ha hne hgap "(g 1)").1 b hb
  rw [if_neg (by simpa using hforms), if_neg (by simpa using hforms'), houta, houtb] at happend
  exact ⟨a, b, ha, hne, hgap, hb, houtb, happend, hfails,
    (compileStages_append ha hne hgap "(defvar y)").2 _ hfails⟩

end Lisplet
