import Lisplet.Proofs.Code.Wrapping
import Lisplet.Proofs.Form.Readability
import Mathlib.Algebra.Ring.Nat

namespace Lisplet

def brackets : List Char := ['(', ')', '\x7b', '\x7d']

inductive WellNested : List Char → Prop
  | nil : WellNested []
  | plain {c cs} : c ∉ brackets → WellNested cs → WellNested (c :: cs)
  | round {cs ds} : WellNested cs → WellNested ds → WellNested ('(' :: (cs ++ ')' :: ds))
  | curly {cs ds} : WellNested cs → WellNested ds → WellNested ('\x7b' :: (cs ++ '\x7d' :: ds))

def marks (c : Char) (s : String) : Nat := s.toList.count c

namespace Form

mutual

def placed (place : Place) : Form → List (Place × Form)
  | number text => [(place, number text)]
  | symbol text => [(place, symbol text)]
  | call callee args => (place, call callee args) :: placedAll .call args
  | binary op operands => (place, binary op operands) :: placedAll .binary operands
  | declare name inits => (place, declare name inits) :: placedFirst .declare inits
  | cond test conseq alts =>
    (place, cond test conseq alts) ::
      (test.placed .cond ++ conseq.placed .cond ++ placedFirst .cond alts)

def placedAll (place : Place) : List Form → List (Place × Form)
  | [] => []
  | f :: fs => f.placed place ++ placedAll place fs

def placedFirst (place : Place) : List Form → List (Place × Form)
  | [] => []
  | f :: _ => f.placed place

end

@[simp]
def hasAlternative : Form → Bool
  | cond _ _ (_ :: _) => true
  | _ => false

@[simp]
def bindsName : Form → Bool
  | declare _ (symbol _ :: _) => true
  | _ => false

@[simp]
def equalities : Form → Nat
  | binary .eq operands => operands.length - 1
  | _ => 0

end Form

def placed (program : List Form) : List (Place × Form) := program.flatMap (Form.placed .program)

/-- How often the mark stands in what the form adds to the text itself, around its names and the
texts of its children. -/
def shellMarks (c : Char) : Place × Form → Nat
  | (_, .number _) | (_, .symbol _) | (_, .declare _ []) => 0
  | (place, .call _ args) =>
    marks c "(" + (args.length - 1) * marks c ", " + marks c ")" + marks c (place.terminator .call)
  | (place, .binary op operands) =>
    marks c "(" + (operands.length - 1) * marks c (" " ++ op.rendered ++ " ") + marks c ")" +
      marks c (place.terminator .binary)
  | (place, .declare _ (init :: _)) =>
    marks c (Form.binding "" init "") + marks c (place.terminator .declare)
  | (_, .cond _ _ []) => marks c "if " + marks c (Code.block "a" "")
  | (_, .cond _ _ (_ :: _)) =>
    marks c "if " + marks c (Code.block "a" "") + marks c ("\nelse" ++ Code.block "b" "")

def tally (kind : Place) (nodes : List (Place × Form)) : Nat :=
  nodes.countP fun n => n.2.place? = some kind

def alternatives (nodes : List (Place × Form)) : Nat := nodes.countP fun n => n.2.hasAlternative

structure Tallies (nodes : List (Place × Form)) (breaks : Nat) (count : Char → Nat) : Prop where
  round : count '(' = tally .call nodes + tally .binary nodes
  curly : count '\x7b' = tally .cond nodes + alternatives nodes
  quotes : count '"' = 2 * nodes.countP fun n => n.2.bindsName
  equals : count '=' = tally .declare nodes + tally .cond nodes + alternatives nodes +
    (nodes.map fun n => 2 * n.2.equalities).sum
  semicolons : count ';' = tally .cond nodes + alternatives nodes +
    nodes.countP (fun n => n.2.place? = some .binary ∧ n.1 = .program) +
    nodes.countP (fun n => n.2.place? = some .call ∧ n.1 ∉ [.call, .binary]) +
    nodes.countP (fun n => n.2.place? = some .declare ∧ n.1 ≠ .declare)
  newlines : count '\n' = breaks + 2 * tally .cond nodes + 3 * alternatives nodes

namespace WellNested

theorem append {cs ds : List Char} (h : WellNested cs) (h' : WellNested ds) :
    WellNested (cs ++ ds) := by
  induction h with
  | nil => exact h'
  | plain hc _ ih => exact .plain hc ih
  | round hcs _ _ ih =>
    rw [List.cons_append, List.append_assoc]
    exact .round hcs ih
  | curly hcs _ _ ih =>
    rw [List.cons_append, List.append_assoc]
    exact .curly hcs ih

theorem of_forall {cs : List Char} (h : ∀ c ∈ cs, c ∉ brackets) : WellNested cs := by
  induction cs with
  | nil => exact .nil
  | cons c cs ih =>
    rw [List.forall_mem_cons] at h
    exact .plain h.1 (ih h.2)

theorem of_all {cs : List Char} (h : cs.all fun c => !brackets.contains c) : WellNested cs :=
  .of_forall (by simpa using h)

theorem intercalate {sep : List Char} {texts : List (List Char)} (hsep : WellNested sep)
    (h : ∀ t ∈ texts, WellNested t) : WellNested (sep.intercalate texts) := by
  induction texts with
  | nil => exact .nil
  | cons t texts ih =>
    rw [List.forall_mem_cons] at h
    cases texts with
    | nil => simpa using h.1
    | cons u texts =>
      rw [List.intercalate_cons_cons]
      exact (h.1.append hsep).append (ih h.2)

end WellNested

theorem notMem_brackets_of_isWordChar {c : Char} (h : isWordChar c) : c ∉ brackets := by
  intro hc
  simp only [brackets, List.mem_cons, List.not_mem_nil, or_false] at hc
  rcases hc with rfl | rfl | rfl | rfl <;> cases h

section

variable (c : Char)

@[simp] theorem marks_append (s t : String) : marks c (s ++ t) = marks c s + marks c t := by
  simp [marks]

@[simp] theorem marks_empty : marks c "" = 0 := rfl

theorem marks_intercalate (sep : String) (texts : List String) :
    marks c (sep.intercalate texts) =
      (texts.length - 1) * marks c sep + (texts.map (marks c)).sum := by
  induction texts with
  | nil => simp [marks]
  | cons t texts ih =>
    cases texts with
    | nil => simp
    | cons u texts =>
      rw [String.intercalate_cons_cons, marks_append, marks_append, ih]
      simp [Nat.succ_mul]
      omega

end

namespace Form

theorem placedAll_eq_flatMap (place : Place) (fs : List Form) :
    placedAll place fs = fs.flatMap (placed place) := by
  induction fs with
  | nil => rfl
  | cons f fs ih => simp [placedAll, ih]

theorem placedFirst_eq_flatMap (place : Place) (fs : List Form) :
    placedFirst place fs = (fs.take 1).flatMap (placed place) := by
  cases fs <;> simp [placedFirst]

theorem placed_eq {f : Form} {inner : Place} (h : f.place? = some inner) (place : Place) :
    f.placed place = (place, f) :: f.keptChildren.flatMap (placed inner) := by
  cases f with
  | number | symbol => cases h
  | call | binary =>
    cases h
    rw [placed, placedAll_eq_flatMap]
    rfl
  | declare =>
    cases h
    rw [placed, placedFirst_eq_flatMap]
    rfl
  | cond =>
    cases h
    rw [placed, placedFirst_eq_flatMap]
    simp [keptChildren]

theorem map_snd_placed (f : Form) (place : Place) : (f.placed place).map Prod.snd = f.kept := by
  induction f using inductChildren generalizing place with
  | node f ih =>
    cases h : f.place? with
    | none => obtain ⟨text, rfl | rfl⟩ := exists_literal_of_place? h <;> rfl
    | some inner =>
      rw [placed_eq h, kept_eq, List.map_cons, List.map_flatMap]
      exact congrArg (f :: ·) (List.flatMap_congr fun g hg => ih g (f.keptChildren_subset hg) inner)

section

variable {c : Char}

theorem marks_literal (hc : isWordChar c = false) {f : Form} (hf : f.Sourced) {l : Lexeme}
    (hl : f.lexeme? = some l) : marks c l.literal = 0 := by
  apply List.count_eq_zero_of_not_mem
  intro hmem
  rw [hf.isWordChar hl c hmem] at hc
  cases hc

theorem marks_binding (name : String) (init : Form) (value : String) :
    marks c (binding name init value) =
      marks c (binding "" init "") + marks c name + marks c value := by
  cases init with
  | symbol =>
    simp only [binding, marks_append, marks_empty]
    omega
  | number | call | binary | declare | cond =>
    simp only [binding, marks_append, marks_empty]
    omega

theorem marks_block (name value : String) :
    marks c (Code.block name value) = marks c (Code.block name "") + marks c value := by
  simp only [Code.block, marks_append, marks_empty]
  omega

theorem marks_intercalate_texts (sep : String) {fs : List Form} {place : Place}
    (h : ∀ f ∈ fs, marks c (f.text place) = ((f.placed place).map (shellMarks c)).sum) :
    marks c (sep.intercalate (fs.map (text place))) =
      (fs.length - 1) * marks c sep + ((fs.flatMap (placed place)).map (shellMarks c)).sum := by
  rw [marks_intercalate, List.length_map, List.map_map, List.map_flatMap, List.flatMap_def,
    List.sum_flatten, List.map_map]
  exact congrArg (_ + List.sum ·) (List.map_congr_left h)

theorem marks_text (hc : isWordChar c = false) {f : Form} (hf : f.Sourced) (place : Place) :
    marks c (f.text place) = ((f.placed place).map (shellMarks c)).sum := by
  induction f using Form.induct generalizing place with
  | number value | symbol value =>
    have hvalue : marks c value = 0 := marks_literal hc hf rfl
    rw [text, hvalue]
    rfl
  | call callee args ih =>
    have hchildren := ((sourced_iff _).1 hf).2.2
    have hcallee : marks c callee = 0 := marks_literal hc hf rfl
    have hargs := marks_intercalate_texts ", " fun f hmem => ih f hmem (hchildren f hmem) .call
    simp only [text, texts_eq_map, marks_append, hcallee, hargs, placed, placedAll_eq_flatMap,
      List.map_cons, List.sum_cons, shellMarks]
    omega
  | binary op operands ih =>
    have hchildren := ((sourced_iff _).1 hf).2.2
    have hoperands := marks_intercalate_texts (" " ++ op.rendered ++ " ")
      fun f hmem => ih f hmem (hchildren f hmem) .binary
    simp only [text, texts_eq_map, marks_append, hoperands, placed, placedAll_eq_flatMap,
      List.map_cons, List.sum_cons, shellMarks]
    omega
  | declare name inits ih =>
    have hchildren := ((sourced_iff _).1 hf).2.2
    have hname : marks c name = 0 := marks_literal hc hf rfl
    cases inits with
    | nil => rfl
    | cons init rest =>
      have hinit := ih init List.mem_cons_self (hchildren init List.mem_cons_self) .declare
      rw [text, marks_append, marks_binding, hname, hinit]
      simp only [placed, placedFirst, List.map_cons, List.sum_cons, shellMarks]
      omega
  | cond test conseq alts iht ihc iha =>
    have hchildren := ((sourced_iff _).1 hf).2.2
    simp only [children, List.forall_mem_cons] at hchildren
    have htest := iht hchildren.1 .cond
    have hconseq := ihc hchildren.2.1 .cond
    rw [text, marks_append, marks_append, marks_append, marks_block, htest, hconseq]
    cases alts with
    | nil =>
      simp only [texts, otherwise, marks_empty, placed, placedFirst, List.map_cons, List.map_append,
        List.sum_cons, List.sum_append, shellMarks, List.map_nil, List.sum_nil]
      omega
    | cons alt rest =>
      have halt := iha alt List.mem_cons_self (hchildren.2.2 alt List.mem_cons_self) .cond
      rw [texts, otherwise, marks_append, marks_block "b", halt]
      simp only [placed, placedFirst, List.map_cons, List.map_append, List.sum_cons,
        List.sum_append, shellMarks, marks_append]
      omega

end

theorem wellNested_literal {f : Form} (hf : f.Sourced) {l : Lexeme} (hl : f.lexeme? = some l) :
    WellNested l.literal.toList :=
  .of_forall fun c hc => notMem_brackets_of_isWordChar (hf.isWordChar hl c hc)

theorem wellNested_terminator (place child : Place) :
    WellNested (place.terminator child).toList := by
  obtain h | h := place.terminator_eq child
  · rw [h]
    exact .nil
  · rw [h]
    exact .of_all rfl

theorem wellNested_block {name value : String} (hname : WellNested name.toList)
    (hvalue : WellNested value.toList) : WellNested (Code.block name value).toList := by
  have hblock : (Code.block name value).toList =
      ' ' :: '\x7b' :: (("\n var ".toList ++ name.toList ++ " = ".toList ++ value.toList ++
        ";\n".toList) ++ '\x7d' :: []) := by
    simp [Code.block]
  rw [hblock]
  refine .plain (by simp [brackets]) (.curly ?_ .nil)
  have hvar : WellNested "\n var ".toList := .of_all rfl
  have heq : WellNested " = ".toList := .of_all rfl
  have hend : WellNested ";\n".toList := .of_all rfl
  exact (((hvar.append hname).append heq).append hvalue).append hend

theorem wellNested_binding {name value : String} (init : Form) (hname : WellNested name.toList)
    (hvalue : WellNested value.toList) : WellNested (binding name init value).toList := by
  have hchar : WellNested "char *".toList := .of_all rfl
  have hquote : WellNested " = \"".toList := .of_all rfl
  have hend : WellNested "\"".toList := .of_all rfl
  have hint : WellNested "int ".toList := .of_all rfl
  have heq : WellNested " = ".toList := .of_all rfl
  cases init with
  | symbol =>
    simp only [binding, String.toList_append]
    exact (((hchar.append hname).append hquote).append hvalue).append hend
  | number | call | binary | declare | cond =>
    simp only [binding, String.toList_append]
    exact ((hint.append hname).append heq).append hvalue

theorem wellNested_text {f : Form} (hf : f.Sourced) (place : Place) :
    WellNested (f.text place).toList := by
  induction f using Form.induct generalizing place with
  | number | symbol => exact wellNested_literal hf rfl
  | call callee args ih =>
    have hchildren := ((sourced_iff _).1 hf).2.2
    have hargs : ∀ t ∈ args.map fun f => (f.text .call).toList, WellNested t :=
      List.forall_mem_map.2 fun f hmem => ih f hmem (hchildren f hmem) .call
    have htext := text_call_append place callee [] args
    rw [List.append_nil, List.append_nil] at htext
    rw [htext]
    exact (wellNested_literal hf rfl).append
      (.round (.intercalate (.of_all rfl) hargs) (wellNested_terminator place _))
  | binary op operands ih =>
    have hchildren := ((sourced_iff _).1 hf).2.2
    have hoperands : ∀ t ∈ operands.map fun f => (f.text .binary).toList, WellNested t :=
      List.forall_mem_map.2 fun f hmem => ih f hmem (hchildren f hmem) .binary
    have hop : WellNested (" " ++ op.rendered ++ " ").toList := by
      cases op <;> exact .of_all rfl
    have htext := text_binary_append place [] op operands
    rw [List.append_nil, List.append_nil] at htext
    rw [htext]
    exact .round (.intercalate hop hoperands) (wellNested_terminator place _)
  | declare name inits ih =>
    have hchildren := ((sourced_iff _).1 hf).2.2
    cases inits with
    | nil => exact .nil
    | cons init rest =>
      have hinit := ih init List.mem_cons_self (hchildren init List.mem_cons_self) .declare
      rw [text, String.toList_append]
      exact (wellNested_binding init (wellNested_literal hf rfl) hinit).append
        (wellNested_terminator place _)
  | cond test conseq alts iht ihc iha =>
    have hchildren := ((sourced_iff _).1 hf).2.2
    simp only [children, List.forall_mem_cons] at hchildren
    have hif : WellNested "if ".toList := .of_all rfl
    have ha : WellNested "a".toList := .of_all rfl
    have hthen := wellNested_block ha (ihc hchildren.2.1 .cond)
    rw [text, String.toList_append, String.toList_append, String.toList_append]
    refine ((hif.append (iht hchildren.1 .cond)).append hthen).append ?_
    cases alts with
    | nil => exact .nil
    | cons alt rest =>
      have helse : WellNested "\nelse".toList := .of_all rfl
      have hb : WellNested "b".toList := .of_all rfl
      have halt := iha alt List.mem_cons_self (hchildren.2.2 alt List.mem_cons_self) .cond
      rw [texts, otherwise, String.toList_append]
      exact helse.append (wellNested_block hb halt)

theorem infix_intercalate (sep : List Char) {t : List Char} {texts : List (List Char)}
    (h : t ∈ texts) : t <:+: sep.intercalate texts := by
  induction texts with
  | nil => cases h
  | cons u texts ih =>
    cases texts with
    | nil =>
      rw [List.mem_singleton.1 h]
      simp
    | cons v texts =>
      rw [List.intercalate_cons_cons, List.append_assoc]
      cases h with
      | head => exact (List.prefix_append t _).isInfix
      | tail _ h =>
        have hrest := (ih h).trans (List.suffix_append sep _).isInfix
        exact hrest.trans (List.suffix_append u _).isInfix

theorem infix_texts (sep : String) {f : Form} {fs : List Form} (h : f ∈ fs) (place : Place) :
    (f.text place).toList <:+: (sep.intercalate (fs.map (text place))).toList := by
  rw [String.toList_intercalate]
  exact infix_intercalate _ (List.mem_map_of_mem (List.mem_map_of_mem h))

theorem infix_binding (name : String) (init : Form) (value : String) :
    value.toList <:+: (binding name init value).toList := by
  cases init with
  | symbol => exact ⟨"char *".toList ++ name.toList ++ " = \"".toList, ['"'], by simp [binding]⟩
  | number | call | binary | declare | cond =>
    exact ⟨"int ".toList ++ name.toList ++ " = ".toList, [], by simp [binding]⟩

theorem infix_block (name value : String) : value.toList <:+: (Code.block name value).toList :=
  ⟨" \x7b\n var ".toList ++ name.toList ++ " = ".toList, ";\n\x7d".toList, by simp [Code.block]⟩

theorem infix_text {f g : Form} {inner : Place} (h : f.place? = some inner)
    (hg : g ∈ f.keptChildren)
    (place : Place) : (g.text inner).toList <:+: (f.text place).toList := by
  cases f with
  | number | symbol => cases h
  | call callee args =>
    cases h
    rw [keptChildren] at hg
    refine (infix_texts ", " hg .call).trans ⟨callee.toList ++ ['('], ?_, ?_⟩
    · exact ')' :: (place.terminator .call).toList
    · simp [text]
  | binary op operands =>
    cases h
    rw [keptChildren] at hg
    refine (infix_texts (" " ++ op.rendered ++ " ") hg .binary).trans ⟨['('], ?_, ?_⟩
    · exact ')' :: (place.terminator .binary).toList
    · simp [text]
  | declare name inits =>
    cases h
    cases inits with
    | nil => cases hg
    | cons init rest =>
      rw [List.mem_singleton.1 hg, text, String.toList_append]
      exact (infix_binding name init _).trans (List.prefix_append _ _).isInfix
  | cond test conseq alts =>
    cases h
    rw [keptChildren, List.mem_cons, List.mem_cons] at hg
    obtain rfl | rfl | hg := hg
    · refine ⟨"if ".toList, ?_, ?_⟩
      · exact (Code.block "a" (conseq.text .cond)).toList ++ (otherwise (texts .cond alts)).toList
      · simp [text]
    · refine (infix_block "a" _).trans ⟨"if ".toList ++ (test.text .cond).toList, ?_, ?_⟩
      · exact (otherwise (texts .cond alts)).toList
      · simp [text]
    · cases alts with
      | nil => cases hg
      | cons alt rest =>
        rw [List.mem_singleton.1 hg, text, texts, otherwise, ← String.append_assoc,
          String.toList_append]
        exact (infix_block "b" _).trans (List.suffix_append _ _).isInfix

theorem infix_text_of_mem_placed {f : Form} {place : Place} {n : Place × Form}
    (h : n ∈ f.placed place) : (n.2.text n.1).toList <:+: (f.text place).toList := by
  induction f using inductChildren generalizing place with
  | node f ih =>
    cases hp : f.place? with
    | none =>
      obtain ⟨text, rfl | rfl⟩ := exists_literal_of_place? hp
      all_goals
        obtain rfl := List.mem_singleton.1 h
        exact List.infix_rfl
    | some inner =>
      rw [placed_eq hp, List.mem_cons, List.mem_flatMap] at h
      obtain rfl | ⟨g, hg, h⟩ := h
      · exact List.infix_rfl
      · exact (ih g (f.keptChildren_subset hg) h).trans (infix_text hp hg place)

end Form

namespace Place

theorem count_terminator {c : Char} (hc : c ≠ ';') (place child : Place) :
    (place.terminator child).toList.count c = 0 := by
  obtain h | h := place.terminator_eq child
  · rw [h]
    rfl
  · rw [h]
    simp [hc.symm]

theorem count_terminator_call (place : Place) :
    (place.terminator .call).toList.count ';' = if place ∉ [.call, .binary] then 1 else 0 := by
  cases place <;> rfl

theorem count_terminator_binary (place : Place) :
    (place.terminator .binary).toList.count ';' = if place = .program then 1 else 0 := by
  cases place <;> rfl

theorem count_terminator_declare (place : Place) :
    (place.terminator .declare).toList.count ';' = if place ≠ .declare then 1 else 0 := by
  cases place <;> rfl

end Place

theorem Operator.count_rendered {c : Char} (hc : c ∉ ['+', '-', '*', '/', '<', '>', '='])
    (op : Operator) : op.rendered.toList.count c = 0 := by
  simp only [List.mem_cons, List.not_mem_nil, or_false, not_or] at hc
  cases op <;> simp [rendered, symbol, hc, eq_comm]

theorem tallies_nil : Tallies [] 0 fun _ => 0 where
  round := rfl
  curly := rfl
  quotes := rfl
  equals := rfl
  semicolons := rfl
  newlines := rfl

theorem Tallies.cons {n : Place × Form} {nodes : List (Place × Form)} {count count' : Char → Nat}
    (h : Tallies [n] 0 count) (h' : Tallies nodes 0 count') :
    Tallies (n :: nodes) 0 fun c => count c + count' c := by
  obtain ⟨hround, hcurly, hquotes, hequals, hsemicolons, hnewlines⟩ := h
  obtain ⟨hround', hcurly', hquotes', hequals', hsemicolons', hnewlines'⟩ := h'
  simp only [tally, alternatives, List.countP_cons, List.countP_nil, List.map_cons, List.map_nil,
    List.sum_cons, List.sum_nil] at *
  constructor <;>
    simp only [tally, alternatives, List.countP_cons, List.map_cons, List.sum_cons] <;>
    omega

section

open Place

theorem tallies_node (place : Place) {f : Form} (hf : ∀ name, f ≠ .declare name []) :
    Tallies [(place, f)] 0 fun c => shellMarks c (place, f) := by
  cases f with
  | number | symbol => constructor <;> rfl
  | call callee args =>
    constructor <;> simp [shellMarks, marks, tally, alternatives, Form.place?, count_terminator,
      count_terminator_call]
  | binary op operands =>
    constructor <;> simp [shellMarks, marks, tally, alternatives, Form.place?, count_terminator,
      count_terminator_binary, Operator.count_rendered]
    cases op <;> simp [Operator.rendered, Operator.symbol, Nat.mul_comm]
  | declare name inits =>
    cases inits with
    | nil => exact absurd rfl (hf name)
    | cons init rest =>
      cases init <;> constructor <;> simp [shellMarks, marks, tally, alternatives, Form.place?,
        Form.binding, count_terminator, count_terminator_declare]
  | cond test conseq alts =>
    cases alts <;> constructor <;> rfl

end

theorem tallies_nodes {nodes : List (Place × Form)}
    (h : ∀ n ∈ nodes, ∀ name, n.2 ≠ .declare name []) :
    Tallies nodes 0 fun c => (nodes.map (shellMarks c)).sum := by
  induction nodes with
  | nil => exact tallies_nil
  | cons n nodes ih =>
    rw [List.forall_mem_cons] at h
    simp only [List.map_cons, List.sum_cons]
    exact (tallies_node n.1 h.1).cons (ih h.2)

section

variable {program : List Form}

theorem map_snd_placed (program : List Form) :
    (placed program).map Prod.snd = program.flatMap Form.kept := by
  rw [placed, List.map_flatMap]
  exact List.flatMap_congr fun f _ => f.map_snd_placed .program

theorem ne_bare_of_mem_placed (h : ∀ f ∈ program, f.Sourced) :
    ∀ n ∈ placed program, ∀ name, n.2 ≠ .declare name [] := by
  intro n hn name hbare
  have hmem : n.2 ∈ (placed program).map Prod.snd := List.mem_map_of_mem hn
  rw [map_snd_placed, hbare, List.mem_flatMap] at hmem
  obtain ⟨f, hf, hmem⟩ := hmem
  exact (h f hf).initialized name (f.kept_subset_nodes hmem)

theorem wellNested_program (h : ∀ f ∈ program, f.Sourced) :
    WellNested ("\n".intercalate (program.map (Form.text .program))).toList := by
  rw [String.toList_intercalate, List.map_map]
  refine .intercalate (.of_all rfl) (List.forall_mem_map.2 fun f hf => ?_)
  exact Form.wellNested_text (h f hf) .program

theorem tallies_program (h : ∀ f ∈ program, f.Sourced) :
    Tallies (placed program) (program.length - 1) fun c =>
      marks c ("\n".intercalate (program.map (Form.text .program))) := by
  have hmarks {c : Char} (hc : isWordChar c = false) :
      marks c ("\n".intercalate (program.map (Form.text .program))) =
        (program.length - 1) * marks c "\n" + ((placed program).map (shellMarks c)).sum :=
    Form.marks_intercalate_texts "\n" fun f hf => Form.marks_text hc (h f hf) .program
  have hnodes := tallies_nodes (ne_bare_of_mem_placed h)
  have hinner {c : Char} (hc : isWordChar c = false) (hline : marks c "\n" = 0) :
      marks c ("\n".intercalate (program.map (Form.text .program))) =
        ((placed program).map (shellMarks c)).sum := by
    rw [hmarks hc, hline, Nat.mul_zero, Nat.zero_add]
  exact {
    round := (hinner rfl rfl).trans hnodes.round
    curly := (hinner rfl rfl).trans hnodes.curly
    quotes := (hinner rfl rfl).trans hnodes.quotes
    equals := (hinner rfl rfl).trans hnodes.equals
    semicolons := (hinner rfl rfl).trans hnodes.semicolons
    newlines := by
      have hline : marks '\n' "\n" = 1 := rfl
      have hrest := hnodes.newlines
      rw [hmarks rfl, hline]
      omega }

theorem infix_program {n : Place × Form} (h : n ∈ placed program) :
    (n.2.text n.1).toList <:+: ("\n".intercalate (program.map (Form.text .program))).toList := by
  obtain ⟨f, hf, hn⟩ := List.mem_flatMap.1 h
  exact (Form.infix_text_of_mem_placed hn).trans (Form.infix_texts "\n" hf .program)

end

end Lisplet
