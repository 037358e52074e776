import Lisplet.Proofs.Form.Text
import Lisplet.Proofs.Token.Munch

namespace Lisplet

theorem Text.append_inj_of_stop {p : Char → Bool} {v w r s : List Char} (hv : ∀ c ∈ v, p c)
    (hw : ∀ c ∈ w, p c) (hr : ∀ c ∈ r.head?, p c = false) (hs : ∀ c ∈ s.head?, p c = false)
    (h : v ++ r = w ++ s) : v = w ∧ r = s := by
  constructor
  · rw [← Text.takeWhile_append_of_stop hv hr, h, Text.takeWhile_append_of_stop hw hs]
  · rw [← Text.dropWhile_append_of_stop hv hr, h, Text.dropWhile_append_of_stop hw hs]

theorem IsWord.isWordChar {w : List Char} (h : IsWord w) : ∀ c ∈ w, isWordChar c := by
  obtain ⟨c, w, rfl, hc, hw⟩ := isWord_iff.1 h
  exact List.forall_mem_cons.2 ⟨isWordChar_iff.2 (.inl hc), hw⟩

namespace Form

def lexeme? : Form → Option Lexeme
  | number text => some ⟨.number, text⟩
  | symbol text => some ⟨.name, text⟩
  | call callee _ => some ⟨.name, callee⟩
  | declare name _ => some ⟨.name, name⟩
  | binary _ _ | cond _ _ _ => none

structure Sourced (f : Form) : Prop where
  legal : ∀ g ∈ f.nodes, ∀ l ∈ g.lexeme?, l.Legal
  initialized : f.Initialized

theorem sourced_iff (f : Form) :
    f.Sourced ↔
      (∀ l ∈ f.lexeme?, l.Legal) ∧ (∀ name, f ≠ declare name []) ∧ ∀ g ∈ f.children, g.Sourced := by
  have hlegal : (∀ g ∈ f.nodes, ∀ l ∈ g.lexeme?, l.Legal) ↔
      (∀ l ∈ f.lexeme?, l.Legal) ∧ ∀ g ∈ f.children, ∀ k ∈ g.nodes, ∀ l ∈ k.lexeme?, l.Legal := by
    rw [nodes_eq, List.forall_mem_cons, List.forall_mem_flatMap]
  constructor
  · intro h
    have hi := (initialized_iff f).1 h.initialized
    have hl := hlegal.1 h.legal
    exact ⟨hl.1, hi.1, fun g hg => ⟨hl.2 g hg, hi.2 g hg⟩⟩
  · intro h
    exact ⟨hlegal.2 ⟨h.1, fun g hg => (h.2.2 g hg).legal⟩,
      (initialized_iff f).2 ⟨h.2.1, fun g hg => (h.2.2 g hg).initialized⟩⟩

theorem Sourced.isWordChar {f : Form} (hf : f.Sourced) {l : Lexeme} (hl : f.lexeme? = some l) :
    ∀ c ∈ l.literal.toList, isWordChar c := by
  have hlegal := ((sourced_iff f).1 hf).1 l hl
  cases f with
  | number text =>
    cases hl
    exact fun c hc => isWordChar_iff.2 (.inr (.inl (hlegal.2 c hc)))
  | symbol | call | declare =>
    cases hl
    exact hlegal.1.isWordChar
  | binary | cond => cases hl

theorem literal_inj {f g : Form} (hf : f.Sourced) (hg : g.Sourced) {l m : Lexeme}
    (hl : f.lexeme? = some l) (hm : g.lexeme? = some m) {r s : List Char}
    (hr : ∀ c ∈ r.head?, Lisplet.isWordChar c = false)
    (hs : ∀ c ∈ s.head?, Lisplet.isWordChar c = false)
    (h : l.literal.toList ++ r = m.literal.toList ++ s) : l.literal = m.literal ∧ r = s := by
  rw [← String.toList_inj]
  exact Text.append_inj_of_stop (hf.isWordChar hl) (hg.isWordChar hm) hr hs h

end Form

def nameBehind (lead cs : List Char) : Bool :=
  lead.isPrefixOf cs && (cs.drop lead.length).head?.any Char.isAlpha

structure Follows (cs : List Char) : Prop where
  stop : ∀ c ∈ cs.head?, isWordChar c = false
  call : cs.head? ≠ some '('
  int : nameBehind " ".toList cs = false
  string : nameBehind " *".toList cs = false
  otherwise : ¬ "\nelse \x7b".toList <+: cs

namespace Follows

theorem nil : Follows [] := ⟨by simp, by simp, rfl, rfl, by simp⟩

theorem of_head {c : Char} (hc : c ∈ [',', ')', ';']) (cs : List Char) : Follows (c :: cs) := by
  simp only [List.mem_cons, List.not_mem_nil, or_false] at hc
  rcases hc with rfl | rfl | rfl <;> exact ⟨by simp; rfl, by simp, rfl, rfl, by simp⟩

theorem operator (op : Operator) (cs : List Char) :
    Follows ((" " ++ op.rendered ++ " ").toList ++ cs) := by
  have hhead : ((" " ++ op.rendered ++ " ").toList ++ cs).head? = some ' ' := by simp
  refine ⟨by rw [hhead]; simp; rfl, by rw [hhead]; simp, ?_, ?_, by simp⟩
  all_goals cases op <;> rfl

theorem block (cs : List Char) : Follows (' ' :: '\x7b' :: cs) :=
  ⟨by simp; rfl, by simp, rfl, rfl, by simp⟩

theorem newline {cs : List Char} (h : ¬ "else \x7b".toList <+: cs) : Follows ('\n' :: cs) :=
  ⟨by simp; rfl, by simp, rfl, rfl, by simpa using h⟩

theorem terminator {cs : List Char} (h : Follows cs) (place child : Place) :
    Follows ((place.terminator child).toList ++ cs) := by
  cases place.terminator_eq child with
  | inl ht => simpa [ht] using h
  | inr ht => simpa [ht] using of_head (by simp) cs

end Follows

def wordKind (word rest : List Char) : String :=
  if rest.head? = some '(' then "CallExpression"
  else if word = "if".toList then "IfStatement"
  -- No keyword: a bare name may be the same word, and only what follows tells them apart.
  else if word = "int".toList ∧ nameBehind " ".toList rest then "VariableDeclarator"
  else if word = "char".toList ∧ nameBehind " *".toList rest then "VariableDeclarator"
  else "StringLiteral"

def kindAhead (cs : List Char) : Option String :=
  let word := cs.takeWhile isWordChar
  let rest := cs.dropWhile isWordChar
  if word = [] then if rest.head? = some '(' then some "BinaryExpression" else none
  else if word.head?.any Char.isDigit then some "NumberLiteral"
  else some (wordKind word rest)

theorem Follows.wordKind_eq {word cs : List Char} (h : Follows cs) (hif : word ≠ "if".toList) :
    wordKind word cs = "StringLiteral" := by
  rw [wordKind, if_neg h.call, if_neg hif, h.int, h.string]
  simp

theorem kindAhead_word {w rest : List Char} (hw : IsWord w)
    (hr : ∀ c ∈ rest.head?, isWordChar c = false) :
    kindAhead (w ++ rest) = some (wordKind w rest) := by
  have htake := Text.takeWhile_append_of_stop hw.isWordChar hr
  have hdrop := Text.dropWhile_append_of_stop hw.isWordChar hr
  obtain ⟨c, v, rfl, hc, hv⟩ := isWord_iff.1 hw
  simp only [kindAhead, htake, hdrop]
  simp [Text.isDigit_eq_false hc]

namespace Form

section

variable (place : Place) (name : String) (r : List Char)

theorem text_call_append (args : List Form) :
    ((call name args).text place).toList ++ r =
      name.toList ++ '(' :: (", ".toList.intercalate (args.map fun f => (f.text .call).toList) ++
        ')' :: ((place.terminator .call).toList ++ r)) := by
  simp [text, Function.comp_def]

theorem text_binary_append (op : Operator) (operands : List Form) :
    ((binary op operands).text place).toList ++ r =
      '(' :: ((" " ++ op.rendered ++ " ").toList.intercalate
        (operands.map fun f => (f.text .binary).toList) ++
          ')' :: ((place.terminator .binary).toList ++ r)) := by
  simp [text, Function.comp_def]

theorem text_declare_symbol_append (value : String) (inits : List Form) :
    ((declare name (symbol value :: inits)).text place).toList ++ r =
      "char".toList ++ (" *".toList ++ (name.toList ++ (" = \"".toList ++
        (value.toList ++ '"' :: ((place.terminator .declare).toList ++ r))))) := by
  simp [text, binding]

theorem text_declare_append {init : Form} (h : ∀ value, init ≠ symbol value) (inits : List Form) :
    ((declare name (init :: inits)).text place).toList ++ r =
      "int".toList ++ (" ".toList ++ (name.toList ++ (" = ".toList ++
        ((init.text .declare).toList ++ ((place.terminator .declare).toList ++ r))))) := by
  rw [text, binding_of_ne_symbol h]
  simp

theorem text_cond_append (test conseq : Form) (alts : List Form) :
    ((cond test conseq alts).text place).toList ++ r =
      "if".toList ++ (" ".toList ++ ((test.text .cond).toList ++
        ' ' :: '\x7b' :: ("\n var a = ".toList ++ ((conseq.text .cond).toList ++
          ';' :: ("\n\x7d".toList ++ ((otherwise (alts.map (text .cond))).toList ++ r)))))) := by
  simp [text, Code.block]

theorem otherwise_append (value : String) (values : List String) :
    (otherwise (value :: values)).toList ++ r =
      "\nelse \x7b".toList ++ ("\n var b = ".toList ++
        (value.toList ++ ';' :: ("\n\x7d".toList ++ r))) := by
  simp [otherwise, Code.block]

end

theorem kindAhead_text {f : Form} (hf : f.Sourced) (place : Place) {r : List Char}
    (hr : Follows r) : kindAhead ((f.text place).toList ++ r) = some f.kind := by
  have hparts := (sourced_iff f).1 hf
  cases f with
  | number text =>
    have hn : text ≠ "" ∧ ∀ c ∈ text.toList, c.isDigit := hparts.1 _ rfl
    rw [Form.text, kindAhead, Text.takeWhile_append_of_stop (hf.isWordChar rfl) hr.stop]
    cases htext : text.toList with
    | nil => exact absurd (String.toList_inj.1 htext) hn.1
    | cons c cs =>
      have hc : c.isDigit := hn.2 c (by simp [htext])
      simp [hc, kind]
  | symbol text =>
    obtain ⟨hw, hk⟩ : IsWord text.toList ∧ text ∉ keywords := hparts.1 _ rfl
    have hif : text.toList ≠ "if".toList := by
      rw [Ne, String.toList_inj]
      rintro rfl
      exact hk (by decide)
    rw [Form.text, kindAhead_word hw hr.stop, hr.wordKind_eq hif]
    rfl
  | call callee args =>
    have hw : IsWord callee.toList ∧ callee ∉ keywords := hparts.1 _ rfl
    rw [text_call_append, kindAhead_word hw.1 (by simp; rfl)]
    simp [wordKind, kind]
  | binary op operands =>
    rw [text_binary_append]
    rfl
  | declare name inits =>
    have hw : IsWord name.toList ∧ name ∉ keywords := hparts.1 _ rfl
    obtain ⟨c, w, hname, hc, -⟩ := isWord_iff.1 hw.1
    cases inits with
    | nil => exact absurd rfl (hparts.2.1 name)
    | cons init rest =>
      by_cases hinit : ∃ value, init = symbol value
      · obtain ⟨value, rfl⟩ := hinit
        rw [text_declare_symbol_append, kindAhead_word (by decide) (by simp; rfl)]
        simp [wordKind, nameBehind, hname, hc, kind]
      · rw [not_exists] at hinit
        rw [text_declare_append place name r hinit, kindAhead_word (by decide) (by simp; rfl)]
        simp [wordKind, nameBehind, hname, hc, kind]
  | cond test conseq alts =>
    rw [text_cond_append, kindAhead_word (by decide) (by simp; rfl)]
    simp [wordKind, kind]

def Readable (f : Form) : Prop :=
  ∀ ⦃place : Place⦄ ⦃g : Form⦄ ⦃r s : List Char⦄, f.Sourced → g.Sourced → Follows r → Follows s →
    (f.text place).toList ++ r = (g.text place).toList ++ s → f.normal = g.normal ∧ r = s

/-- Texts of forms in `place`, each behind `sep`, may stand ahead of all characters of a set of
those that may follow a form. -/
structure Separates (place : Place) (sep : List Char) (set : List Char → Prop) : Prop where
  follows : ∀ {r}, set r → Follows r
  behind : ∀ {f : Form} {r}, f.Sourced → set r → set (sep ++ ((f.text place).toList ++ r))

section

variable {place : Place} {sep : List Char} {set : List Char → Prop} {r s : List Char}

def trail (place : Place) (sep : List Char) (fs : List Form) : List Char :=
  fs.flatMap fun f => sep ++ (f.text place).toList

theorem intercalate_cons (place : Place) (sep : List Char) (f : Form) (fs : List Form) :
    sep.intercalate ((f :: fs).map fun f => (f.text place).toList) =
      (f.text place).toList ++ trail place sep fs := by
  induction fs generalizing f with
  | nil => simp [trail]
  | cons g fs ih =>
    have hg := ih g
    rw [List.map_cons] at hg ⊢
    rw [List.map_cons, List.intercalate_cons_cons, hg]
    simp [trail]

theorem Separates.trail (h : Separates place sep set) {fs : List Form} (hfs : ∀ f ∈ fs, f.Sourced)
    (hr : set r) : set (trail place sep fs ++ r) := by
  induction fs with
  | nil => exact hr
  | cons f fs ih =>
    rw [List.forall_mem_cons] at hfs
    simpa [Form.trail] using h.behind hfs.1 (ih hfs.2)

theorem readable_trail (h : Separates place sep set) (hr : set r) (hs : set s)
    (hrsep : ¬ sep <+: r) (hssep : ¬ sep <+: s) {fs gs : List Form} (hread : ∀ f ∈ fs, f.Readable)
    (hfs : ∀ f ∈ fs, f.Sourced) (hgs : ∀ g ∈ gs, g.Sourced)
    (heq : trail place sep fs ++ r = trail place sep gs ++ s) :
    fs.map normal = gs.map normal ∧ r = s := by
  induction fs generalizing gs with
  | nil =>
    cases gs with
    | nil => exact ⟨rfl, heq⟩
    | cons g gs =>
      refine absurd ⟨(g.text place).toList ++ (trail place sep gs ++ s), ?_⟩ hrsep
      simpa [trail] using heq.symm
  | cons f fs ih =>
    cases gs with
    | nil =>
      refine absurd ⟨(f.text place).toList ++ (trail place sep fs ++ r), ?_⟩ hssep
      simpa [trail] using heq
    | cons g gs =>
      rw [List.forall_mem_cons] at hread hfs hgs
      simp only [trail, List.flatMap_cons, List.append_assoc] at heq
      have hf := hread.1 hfs.1 hgs.1 (h.follows (h.trail hfs.2 hr)) (h.follows (h.trail hgs.2 hs))
        (List.append_cancel_left heq)
      have hrest := ih hread.2 hfs.2 hgs.2 hf.2
      exact ⟨congrArg₂ List.cons hf.1 hrest.1, hrest.2⟩

theorem kindAhead_intercalate (h : Separates place sep set) (hr : set r) {f : Form} {fs : List Form}
    (hfs : ∀ g ∈ f :: fs, g.Sourced) :
    kindAhead (sep.intercalate ((f :: fs).map fun g => (g.text place).toList) ++ r) =
      some f.kind := by
  rw [List.forall_mem_cons] at hfs
  rw [intercalate_cons, List.append_assoc]
  exact kindAhead_text hfs.1 place (h.follows (h.trail hfs.2 hr))

theorem readable_intercalate (h : Separates place sep set) (hr : set r) (hs : set s)
    (hrsep : ¬ sep <+: r) (hssep : ¬ sep <+: s) (hrnone : kindAhead r = none)
    (hsnone : kindAhead s = none) {fs gs : List Form} (hread : ∀ f ∈ fs, f.Readable)
    (hfs : ∀ f ∈ fs, f.Sourced) (hgs : ∀ g ∈ gs, g.Sourced)
    (heq : sep.intercalate (fs.map fun f => (f.text place).toList) ++ r =
      sep.intercalate (gs.map fun g => (g.text place).toList) ++ s) :
    fs.map normal = gs.map normal ∧ r = s := by
  cases fs with
  | nil =>
    cases gs with
    | nil => exact ⟨rfl, heq⟩
    | cons g gs =>
      have hkind := kindAhead_intercalate h hs hgs
      rw [← heq] at hkind
      exact absurd (hrnone.symm.trans hkind) (by simp)
  | cons f fs =>
    cases gs with
    | nil =>
      have hkind := kindAhead_intercalate h hr hfs
      rw [heq] at hkind
      exact absurd (hsnone.symm.trans hkind) (by simp)
    | cons g gs =>
      rw [List.forall_mem_cons] at hread hfs hgs
      rw [intercalate_cons, intercalate_cons, List.append_assoc, List.append_assoc] at heq
      have hf := hread.1 hfs.1 hgs.1 (h.follows (h.trail hfs.2 hr)) (h.follows (h.trail hgs.2 hs))
        heq
      have hrest := readable_trail h hr hs hrsep hssep hread.2 hfs.2 hgs.2 hf.2
      exact ⟨congrArg₂ List.cons hf.1 hrest.1, hrest.2⟩

end

theorem separates_comma : Separates .call ", ".toList Follows :=
  ⟨id, fun _ _ => by simpa using Follows.of_head (by simp) _⟩

theorem separates_operator (op : Operator) :
    Separates .binary (" " ++ op.rendered ++ " ").toList Follows :=
  ⟨id, fun _ _ => Follows.operator op _⟩

theorem operator_inj {a b : Operator} {r s : List Char}
    (h : (" " ++ a.rendered ++ " ").toList ++ r = (" " ++ b.rendered ++ " ").toList ++ s) :
    a = b ∧ r = s := by
  cases a <;> cases b <;> simp_all [Operator.rendered, Operator.symbol]

theorem readable_operands {a b : Operator} {fs gs : List Form} {r s : List Char}
    (hread : ∀ f ∈ fs, f.Readable) (hfs : ∀ f ∈ fs, f.Sourced) (hgs : ∀ g ∈ gs, g.Sourced)
    (heq :
      (" " ++ a.rendered ++ " ").toList.intercalate (fs.map fun f => (f.text .binary).toList) ++
          ')' :: r =
        (" " ++ b.rendered ++ " ").toList.intercalate (gs.map fun g => (g.text .binary).toList) ++
          ')' :: s) :
    a.shown fs.length = b.shown gs.length ∧ fs.map normal = gs.map normal ∧ r = s := by
  have hr : Follows (')' :: r) := .of_head (by simp) r
  have hs : Follows (')' :: s) := .of_head (by simp) s
  cases fs with
  | nil =>
    cases gs with
    | nil => exact ⟨rfl, rfl, (List.cons.inj heq).2⟩
    | cons g gs =>
      have hkind := kindAhead_intercalate (separates_operator b) hs hgs
      rw [← heq] at hkind
      cases hkind
  | cons f fs =>
    cases gs with
    | nil =>
      have hkind := kindAhead_intercalate (separates_operator a) hr hfs
      rw [heq] at hkind
      cases hkind
    | cons g gs =>
      rw [List.forall_mem_cons] at hread hfs hgs
      rw [intercalate_cons, intercalate_cons, List.append_assoc, List.append_assoc] at heq
      have hf := hread.1 hfs.1 hgs.1 ((separates_operator a).trail hfs.2 hr)
        ((separates_operator b).trail hgs.2 hs) heq
      cases fs with
      | nil =>
        cases gs with
        | nil => exact ⟨rfl, by simp [hf.1], (List.cons.inj hf.2).2⟩
        | cons => simp [trail] at hf
      | cons f' fs =>
        cases gs with
        | nil => simp [trail] at hf
        | cons g' gs =>
          have hop := hf.2
          simp only [trail, List.flatMap_cons, List.append_assoc] at hop
          obtain ⟨rfl, -⟩ := operator_inj hop
          have hrest := readable_trail (separates_operator a) hr hs (by simp) (by simp) hread.2
            hfs.2 hgs.2 hf.2
          exact ⟨by simp [Operator.shown], congrArg₂ List.cons hf.1 hrest.1,
            (List.cons.inj hrest.2).2⟩

theorem readable_otherwise {alts alts' : List Form} {r s : List Char}
    (hread : ∀ f ∈ alts, f.Readable) (hfs : ∀ f ∈ alts, f.Sourced) (hgs : ∀ g ∈ alts', g.Sourced)
    (hr : Follows r) (hs : Follows s)
    (heq : (otherwise (alts.map (text .cond))).toList ++ r =
      (otherwise (alts'.map (text .cond))).toList ++ s) :
    (alts.take 1).map normal = (alts'.take 1).map normal ∧ r = s := by
  cases alts with
  | nil =>
    cases alts' with
    | nil => exact ⟨rfl, heq⟩
    | cons g gs =>
      rw [List.map_cons, otherwise_append] at heq
      exact absurd ⟨_, heq.symm⟩ hr.otherwise
  | cons f fs =>
    cases alts' with
    | nil =>
      rw [List.map_cons, otherwise_append] at heq
      exact absurd ⟨_, heq⟩ hs.otherwise
    | cons g gs =>
      rw [List.map_cons, List.map_cons, otherwise_append, otherwise_append] at heq
      have hf := hread f List.mem_cons_self (hfs f List.mem_cons_self) (hgs g List.mem_cons_self)
        (.of_head (by simp) _) (.of_head (by simp) _)
        (List.append_cancel_left (List.append_cancel_left heq))
      exact ⟨by simp [hf.1], List.append_cancel_left (List.cons.inj hf.2).2⟩

theorem kind_eq {f g : Form} (hf : f.Sourced) (hg : g.Sourced) {place : Place} {r s : List Char}
    (hr : Follows r) (hs : Follows s)
    (h : (f.text place).toList ++ r = (g.text place).toList ++ s) : f.kind = g.kind := by
  have hkind := kindAhead_text hf place hr
  rw [h, kindAhead_text hg place hs] at hkind
  exact (Option.some.inj hkind).symm

theorem readable_number (text : String) : (number text).Readable := by
  intro place g r s hf hg hr hs h
  have hkind := kind_eq hf hg hr hs h
  cases g with
  | number text' =>
    have hword := literal_inj hf hg rfl rfl hr.stop hs.stop h
    exact ⟨congrArg number hword.1, hword.2⟩
  | symbol | call | binary | declare | cond => simp [kind] at hkind

theorem readable_symbol (text : String) : (symbol text).Readable := by
  intro place g r s hf hg hr hs h
  have hkind := kind_eq hf hg hr hs h
  cases g with
  | symbol text' =>
    have hword := literal_inj hf hg rfl rfl hr.stop hs.stop h
    exact ⟨congrArg symbol hword.1, hword.2⟩
  | number | call | binary | declare | cond => simp [kind] at hkind

theorem readable_call {callee : String} {args : List Form} (hread : ∀ f ∈ args, f.Readable) :
    (call callee args).Readable := by
  intro place g r s hf hg hr hs h
  have hkind := kind_eq hf hg hr hs h
  cases g with
  | call callee' args' =>
    have hargs : ∀ f ∈ args, f.Sourced := ((sourced_iff _).1 hf).2.2
    have hargs' : ∀ f ∈ args', f.Sourced := ((sourced_iff _).1 hg).2.2
    rw [text_call_append, text_call_append] at h
    obtain ⟨rfl, hbody⟩ : callee = callee' ∧ _ :=
      literal_inj hf hg rfl rfl (by simp; rfl) (by simp; rfl) h
    have hinner := readable_intercalate separates_comma (.of_head (by simp) _)
      (.of_head (by simp) _) (by simp) (by simp) rfl rfl hread hargs hargs' (List.cons.inj hbody).2
    have hend := List.append_cancel_left (List.cons.inj hinner.2).2
    exact ⟨by rw [normal_call, normal_call, hinner.1], hend⟩
  | number | symbol | binary | declare | cond => simp [kind] at hkind

theorem readable_binary {op : Operator} {operands : List Form}
    (hread : ∀ f ∈ operands, f.Readable) :
    (binary op operands).Readable := by
  intro place g r s hf hg hr hs h
  have hkind := kind_eq hf hg hr hs h
  cases g with
  | binary op' operands' =>
    have hops : ∀ f ∈ operands, f.Sourced := ((sourced_iff _).1 hf).2.2
    have hops' : ∀ f ∈ operands', f.Sourced := ((sourced_iff _).1 hg).2.2
    rw [text_binary_append, text_binary_append] at h
    have hinner := readable_operands hread hops hops' (List.cons.inj h).2
    have hend := List.append_cancel_left hinner.2.2
    exact ⟨by rw [normal_binary, normal_binary, hinner.1, hinner.2.1], hend⟩
  | number | symbol | call | declare | cond => simp [kind] at hkind

theorem declare_symbol_inj {place : Place} {name name' value value' : String}
    {rest rest' : List Form} {r s : List Char} (hf : (declare name (symbol value :: rest)).Sourced)
    (hg : (declare name' (symbol value' :: rest')).Sourced)
    (h : ((declare name (symbol value :: rest)).text place).toList ++ r =
      ((declare name' (symbol value' :: rest')).text place).toList ++ s) :
    (declare name (symbol value :: rest)).normal = (declare name' (symbol value' :: rest')).normal ∧
      r = s := by
  have hvalue := ((sourced_iff _).1 hf).2.2 (symbol value) List.mem_cons_self
  have hvalue' := ((sourced_iff _).1 hg).2.2 (symbol value') List.mem_cons_self
  rw [text_declare_symbol_append, text_declare_symbol_append] at h
  obtain ⟨rfl, hbody⟩ : name = name' ∧ _ :=
    literal_inj hf hg rfl rfl (by simp; rfl) (by simp; rfl)
      (List.append_cancel_left (List.append_cancel_left h))
  obtain ⟨rfl, hend⟩ : value = value' ∧ _ :=
    literal_inj hvalue hvalue' rfl rfl (by simp; rfl) (by simp; rfl)
      (List.append_cancel_left hbody)
  exact ⟨by simp, List.append_cancel_left (List.cons.inj hend).2⟩

theorem declare_inj {place : Place} {name name' : String} {init init' : Form}
    {rest rest' : List Form} {r s : List Char} (hread : init.Readable)
    (hinit : ∀ value, init ≠ symbol value) (hinit' : ∀ value, init' ≠ symbol value)
    (hf : (declare name (init :: rest)).Sourced) (hg : (declare name' (init' :: rest')).Sourced)
    (hr : Follows r) (hs : Follows s)
    (h : ((declare name (init :: rest)).text place).toList ++ r =
      ((declare name' (init' :: rest')).text place).toList ++ s) :
    (declare name (init :: rest)).normal = (declare name' (init' :: rest')).normal ∧ r = s := by
  have hvalue := ((sourced_iff _).1 hf).2.2 init List.mem_cons_self
  have hvalue' := ((sourced_iff _).1 hg).2.2 init' List.mem_cons_self
  rw [text_declare_append _ _ _ hinit, text_declare_append _ _ _ hinit'] at h
  obtain ⟨rfl, hbody⟩ : name = name' ∧ _ :=
    literal_inj hf hg rfl rfl (by simp; rfl) (by simp; rfl)
      (List.append_cancel_left (List.append_cancel_left h))
  have hend := hread hvalue hvalue' (hr.terminator place .declare) (hs.terminator place .declare)
    (List.append_cancel_left hbody)
  exact ⟨by simp [hend.1], List.append_cancel_left hend.2⟩

theorem readable_declare {name : String} {inits : List Form} (hread : ∀ f ∈ inits, f.Readable) :
    (declare name inits).Readable := by
  intro place g r s hf hg hr hs h
  have hkind := kind_eq hf hg hr hs h
  cases g with
  | declare name' inits' =>
    cases inits with
    | nil => exact absurd rfl (((sourced_iff _).1 hf).2.1 name)
    | cons init rest =>
      cases inits' with
      | nil => exact absurd rfl (((sourced_iff _).1 hg).2.1 name')
      | cons init' rest' =>
        by_cases hinit : ∃ value, init = symbol value
        · obtain ⟨value, rfl⟩ := hinit
          by_cases hinit' : ∃ value, init' = symbol value
          · obtain ⟨value', rfl⟩ := hinit'
            exact declare_symbol_inj hf hg h
          · rw [text_declare_symbol_append, text_declare_append _ _ _ (not_exists.1 hinit')] at h
            simp at h
        · by_cases hinit' : ∃ value, init' = symbol value
          · obtain ⟨value', rfl⟩ := hinit'
            rw [text_declare_symbol_append, text_declare_append _ _ _ (not_exists.1 hinit)] at h
            simp at h
          · exact declare_inj (hread init List.mem_cons_self) (not_exists.1 hinit)
              (not_exists.1 hinit') hf hg hr hs h
  | number | symbol | call | binary | cond => simp [kind] at hkind

theorem readable_cond {test conseq : Form} {alts : List Form} (htest : test.Readable)
    (hconseq : conseq.Readable) (halts : ∀ f ∈ alts, f.Readable) :
    (cond test conseq alts).Readable := by
  intro place g r s hf hg hr hs h
  have hkind := kind_eq hf hg hr hs h
  cases g with
  | cond test' conseq' alts' =>
    have hparts := ((sourced_iff _).1 hf).2.2
    have hparts' := ((sourced_iff _).1 hg).2.2
    simp only [children, List.forall_mem_cons] at hparts hparts'
    rw [text_cond_append, text_cond_append] at h
    have ht := htest hparts.1 hparts'.1 (.block _) (.block _)
      (List.append_cancel_left (List.append_cancel_left h))
    have hc := hconseq hparts.2.1 hparts'.2.1 (.of_head (by simp) _) (.of_head (by simp) _)
      (List.append_cancel_left (List.cons.inj (List.cons.inj ht.2).2).2)
    have ha := readable_otherwise halts hparts.2.2 hparts'.2.2 hr hs
      (List.append_cancel_left (List.cons.inj hc.2).2)
    exact ⟨by rw [normal_cond, normal_cond, ht.1, hc.1, ha.1], ha.2⟩
  | number | symbol | call | binary | declare => simp [kind] at hkind

theorem readable (f : Form) : f.Readable := by
  induction f using Form.induct with
  | number text => exact readable_number text
  | symbol text => exact readable_symbol text
  | call callee args ih => exact readable_call ih
  | binary op operands ih => exact readable_binary ih
  | declare name inits ih => exact readable_declare ih
  | cond test conseq alts iht ihc iha => exact readable_cond iht ihc iha

structure EndsLine (cs : List Char) : Prop where
  follows : Follows cs
  newline : ∀ c ∈ cs.head?, c = '\n'

/-- A line cannot be taken for the alternative of a conditional on the line before. -/
theorem not_otherwise {f : Form} (hf : f.Sourced) {r : List Char} (hr : EndsLine r) :
    ¬ "else \x7b".toList <+: (f.text .program).toList ++ r := by
  intro h
  obtain ⟨t, ht⟩ := h
  have helse : IsWord "else".toList := by decide
  have hword : "else \x7b".toList ++ t = "else".toList ++ ' ' :: '\x7b' :: t := rfl
  have hkind := kindAhead_text hf .program hr.follows
  rw [← ht, hword, kindAhead_word helse (by simp; rfl)] at hkind
  cases f with
  | symbol text =>
    have hchars : ∀ c ∈ text.toList, isWordChar c := hf.isWordChar rfl
    obtain ⟨-, hrest⟩ := Text.append_inj_of_stop helse.isWordChar hchars (by simp; rfl)
      hr.follows.stop (hword.symm.trans ht)
    have := hr.newline ' ' (by simp [← hrest])
    cases this
  | number | call | binary | declare | cond => simp [wordKind, kind] at hkind

theorem separates_newline : Separates .program "\n".toList EndsLine := by
  refine ⟨fun hr => hr.follows, fun hf hr => ⟨?_, by simp⟩⟩
  simpa using Follows.newline (not_otherwise hf hr)

theorem readable_program {p q : List Form} (hp : ∀ f ∈ p, f.Sourced) (hq : ∀ f ∈ q, f.Sourced)
    (h : "\n".intercalate (p.map (text .program)) = "\n".intercalate (q.map (text .program))) :
    p.map normal = q.map normal := by
  have hend : EndsLine [] := ⟨.nil, by simp⟩
  have heq := congrArg String.toList h
  rw [String.toList_intercalate, String.toList_intercalate, List.map_map, List.map_map] at heq
  refine (readable_intercalate separates_newline hend hend (by simp) (by simp) rfl rfl
    (fun f _ => f.readable) hp hq ?_).1
  simpa [Function.comp_def] using heq

end Form

end Lisplet
