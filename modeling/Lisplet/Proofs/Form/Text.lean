import Lisplet.Code.Render
import Lisplet.Lowering
import Lisplet.Proofs.Form.Pruning

namespace Lisplet

def Place.terminator : (place child : Place) → String
  | .program, .call | .declare, .call | .cond, .call => ";"
  | .program, .binary => ";"
  | .declare, .declare => ""
  | _, .declare => ";"
  | _, _ => ""

theorem Place.terminator_eq (place child : Place) :
    place.terminator child = "" ∨ place.terminator child = ";" := by
  cases place <;> cases child <;> simp [terminator]

@[simp] theorem Place.terminator_cond (place : Place) : place.terminator .cond = "" := by
  cases place <;> rfl

namespace Form

def binding (name : String) (init : Form) (value : String) : String :=
  match init with
  | symbol _ => "char *" ++ name ++ " = \"" ++ value ++ "\""
  | _ => "int " ++ name ++ " = " ++ value

theorem binding_of_ne_symbol {init : Form} (h : ∀ text, init ≠ symbol text) (name value : String) :
    binding name init value = "int " ++ name ++ " = " ++ value := by
  cases init with
  | symbol text => exact absurd rfl (h text)
  | _ => rfl

def otherwise : List String → String
  | [] => ""
  | value :: _ => "\nelse" ++ Code.block "b" value

mutual

def text (place : Place) : Form → String
  | number text => text
  | symbol text => text
  | call callee args =>
    callee ++ "(" ++ ", ".intercalate (texts .call args) ++ ")" ++ place.terminator .call
  | binary op operands =>
    "(" ++ (" " ++ op.rendered ++ " ").intercalate (texts .binary operands) ++ ")" ++
      place.terminator .binary
  | declare _ [] => ""
  | declare name (init :: _) => binding name init (init.text .declare) ++ place.terminator .declare
  | cond test conseq alts =>
    "if " ++ test.text .cond ++ Code.block "a" (conseq.text .cond) ++ otherwise (texts .cond alts)

def texts (place : Place) : List Form → List String
  | [] => []
  | f :: fs => f.text place :: texts place fs

end

def bare? : Form → Option String
  | declare name [] => some name
  | _ => none

theorem bare?_eq_some_iff {f : Form} {name : String} :
    f.bare? = some name ↔ f = declare name [] := by
  cases f with
  | declare name inits => cases inits <;> simp [bare?]
  | number | symbol | call | binary | cond => simp [bare?]

theorem bare?_eq_none_iff {f : Form} : f.bare? = none ↔ ∀ name, f ≠ declare name [] := by
  simp only [← bare?_eq_some_iff, Option.eq_none_iff_forall_ne_some, ne_eq]

def FirstBare (fs : List Form) (name : String) : Prop :=
  ∃ before after, fs = before ++ declare name [] :: after ∧ ∀ f ∈ before, ∀ n, f ≠ declare n []

theorem findSome?_bare?_eq_some_iff {fs : List Form} {name : String} :
    fs.findSome? bare? = some name ↔ FirstBare fs name := by
  simp only [List.findSome?_eq_some_iff, bare?_eq_some_iff, bare?_eq_none_iff, FirstBare]
  constructor
  · rintro ⟨before, f, after, rfl, rfl, h⟩
    exact ⟨before, after, rfl, h⟩
  · rintro ⟨before, after, rfl, h⟩
    exact ⟨before, declare name [], after, rfl, rfl, h⟩

theorem findSome?_bare?_eq_none_iff {fs : List Form} :
    fs.findSome? bare? = none ↔ ∀ name, declare name [] ∉ fs := by
  simp only [List.findSome?_eq_none_iff, bare?_eq_none_iff]
  constructor
  · intro h name hmem
    exact h _ hmem name rfl
  · rintro h f hf name rfl
    exact h name hf

/-- The rules of one pass: `T place f` is what the form comes to in the place. -/
structure IsText (T : Place → Form → String) : Prop where
  number : ∀ place text, T place (.number text) = text
  symbol : ∀ place text, T place (.symbol text) = text
  call : ∀ place callee args, T place (.call callee args) =
    callee ++ "(" ++ ", ".intercalate (args.map (T .call)) ++ ")" ++
      if place ∈ [.program, .declare, .cond] then ";" else ""
  binary : ∀ place op operands, T place (.binary op operands) =
    "(" ++ (" " ++ (if op = .eq then "==" else op.symbol) ++ " ").intercalate
      (operands.map (T .binary)) ++ ")" ++ if place = .program then ";" else ""
  declare_symbol : ∀ place name text rest, T place (.declare name (.symbol text :: rest)) =
    "char *" ++ name ++ " = \"" ++ text ++ "\"" ++ if place = .declare then "" else ";"
  declare : ∀ place name init rest, (∀ text, init ≠ .symbol text) →
    T place (.declare name (init :: rest)) =
      "int " ++ name ++ " = " ++ T .declare init ++ if place = .declare then "" else ";"
  cond : ∀ place test conseq, T place (.cond test conseq []) =
    "if " ++ T .cond test ++ " \x7b\n var a = " ++ T .cond conseq ++ ";\n\x7d"
  cond_else : ∀ place test conseq alt rest, T place (.cond test conseq (alt :: rest)) =
    "if " ++ T .cond test ++ " \x7b\n var a = " ++ T .cond conseq ++ ";\n\x7d" ++
      "\nelse \x7b\n var b = " ++ T .cond alt ++ ";\n\x7d"

@[simp] theorem texts_eq_map (place : Place) (fs : List Form) :
    texts place fs = fs.map (text place) := by
  induction fs with
  | nil => rfl
  | cons f fs ih => simp [texts, ih]

theorem isText_text : IsText text where
  number _ _ := rfl
  symbol _ _ := rfl
  call place callee args := by
    cases place <;> simp [text, Place.terminator]
  binary place op operands := by
    cases place <;> cases op <;> simp [text, Place.terminator, Operator.rendered]
  declare_symbol place name value rest := by
    cases place <;> rfl
  declare place name init rest h := by
    rw [text, binding_of_ne_symbol h]
    cases place <;> rfl
  cond place test conseq := by
    simp [text, Code.block, otherwise, String.append_assoc]
  cond_else place test conseq alt rest := by
    apply String.toList_inj.1
    simp [text, Code.block, otherwise]

end Form

namespace Code

def outcome (bare : Option String) (a : α) : Except RenderError α :=
  match bare with
  | some name => .error (.missingInitializer name)
  | none => .ok a

theorem render_seat {child : Place} {code : Code} (h : code.isConditional = (child == .cond))
    (place : Place) :
    (place.seat child code).render = code.render.map (· ++ place.terminator child) := by
  cases hr : code.render <;> cases place <;> cases child <;>
    simp [Place.seat, Place.wraps, Place.terminator, render, terminator, h, hr] <;> rfl

theorem renderAll_map {fs : List Form} {place : Place}
    (h : ∀ f ∈ fs, (f.lower place).render = outcome (f.kept.findSome? Form.bare?) (f.text place)) :
    renderAll (fs.map (Form.lower place)) =
      outcome ((fs.flatMap Form.kept).findSome? Form.bare?) (fs.map (Form.text place)) := by
  induction fs with
  | nil => simp [renderAll, outcome]
  | cons f fs ih =>
    rw [List.forall_mem_cons] at h
    simp only [List.map_cons, renderAll, h.1, ih h.2, List.flatMap_cons, List.findSome?_append]
    cases f.kept.findSome? Form.bare? <;>
      cases (fs.flatMap Form.kept).findSome? Form.bare? <;> rfl

end Code

namespace Form

theorem render_declare (name : String) (init : Form) :
    (Code.declare name [init.lower .declare]).render =
      (init.lower .declare).render.map (binding name init) := by
  cases init with
  | number | symbol => rfl
  | call | binary | declare | cond =>
    simp only [lower, Place.seat, Place.wraps, if_true, Code.render]
    rfl

theorem render_lower (f : Form) (place : Place) :
    (f.lower place).render = Code.outcome (f.kept.findSome? bare?) (f.text place) := by
  induction f using Form.induct generalizing place with
  | number text => rfl
  | symbol text => rfl
  | call callee args ih =>
    rw [lower, Code.render_seat rfl, lowerAll_eq_map, Code.render,
      Code.renderAll_map fun f hf => ih f hf .call]
    simp only [kept, keptAll_eq_flatMap, List.findSome?_cons, bare?, text, texts_eq_map]
    cases (args.flatMap kept).findSome? bare? <;> rfl
  | binary op operands ih =>
    rw [lower, Code.render_seat rfl, lowerAll_eq_map, Code.render,
      Code.renderAll_map fun f hf => ih f hf .binary]
    simp only [kept, keptAll_eq_flatMap, List.findSome?_cons, bare?, text, texts_eq_map]
    cases (operands.flatMap kept).findSome? bare? <;> rfl
  | declare name inits ih =>
    rw [lower, Code.render_seat rfl]
    cases inits with
    | nil => rfl
    | cons init rest =>
      rw [lowerFirst, render_declare, ih init List.mem_cons_self]
      simp only [kept, keptFirst, List.findSome?_cons, bare?, text]
      cases init.kept.findSome? bare? <;> rfl
  | cond test conseq alts iht ihc iha =>
    rw [lower, Code.render_seat rfl]
    cases alts with
    | nil =>
      simp only [lowerFirst, Code.render, iht, ihc, kept, keptFirst, List.findSome?_cons, bare?,
        List.findSome?_append, List.append_nil, text]
      cases test.kept.findSome? bare? <;> cases conseq.kept.findSome? bare? <;>
        simp [Code.outcome, otherwise, String.append_assoc] <;> rfl
    | cons alt rest =>
      simp only [lowerFirst, Code.render, iht, ihc, iha alt List.mem_cons_self, kept, keptFirst,
        List.findSome?_cons, bare?, List.findSome?_append, text]
      cases test.kept.findSome? bare? <;> cases conseq.kept.findSome? bare? <;>
        cases alt.kept.findSome? bare? <;>
        simp [Code.outcome, otherwise, String.append_assoc] <;> rfl

theorem renderAll_lower (fs : List Form) (place : Place) :
    Code.renderAll (fs.map (lower place)) =
      Code.outcome ((fs.flatMap kept).findSome? bare?) (fs.map (text place)) :=
  Code.renderAll_map fun f _ => f.render_lower place

theorem render_program (program : List Form) :
    render (Lisplet.lower program) =
      Code.outcome ((program.flatMap kept).findSome? bare?)
        ("\n".intercalate (program.map (text .program))) := by
  rw [render, Lisplet.lower, lowerAll_eq_map, renderAll_lower]
  cases (program.flatMap kept).findSome? bare? <;> rfl

theorem render_lower_eq_error_iff {program : List Form} {e : RenderError} :
    render (Lisplet.lower program) = .error e ↔
      ∃ name, e = .missingInitializer name ∧ FirstBare (program.flatMap kept) name := by
  simp only [render_program, ← findSome?_bare?_eq_some_iff]
  cases (program.flatMap kept).findSome? bare? <;> simp [Code.outcome, eq_comm]

theorem exists_render_lower_eq_ok_iff {program : List Form} :
    (∃ text, render (Lisplet.lower program) = .ok text) ↔
      ∀ name, declare name [] ∉ program.flatMap kept := by
  rw [render_program, ← findSome?_bare?_eq_none_iff]
  cases (program.flatMap kept).findSome? bare? <;> simp [Code.outcome]

theorem render_of_forall_kept {program : List Form}
    (h : ∀ name, declare name [] ∉ program.flatMap kept) :
    render (Lisplet.lower program) = .ok ("\n".intercalate (program.map (text .program))) := by
  rw [render_program, findSome?_bare?_eq_none_iff.2 h]
  rfl

theorem render_of_initialized {program : List Form} (h : ∀ f ∈ program, f.Initialized) :
    render (Lisplet.lower program) = .ok ("\n".intercalate (program.map (text .program))) := by
  apply render_of_forall_kept
  intro name hmem
  obtain ⟨f, hf, hmem⟩ := List.mem_flatMap.1 hmem
  exact h f hf name (f.kept_subset_nodes hmem)

theorem binding_normal (name : String) (f : Form) : binding name f.normal = binding name f := by
  cases f with
  | number | symbol => rfl
  | call | binary | declare | cond =>
    simp only [normal_call, normal_binary, normal_declare, normal_cond]
    rfl

theorem intercalate_shown (op : Operator) (values : List String) :
    (" " ++ (op.shown values.length).rendered ++ " ").intercalate values =
      (" " ++ op.rendered ++ " ").intercalate values := by
  match values with
  | [] => rfl
  | [_] => rfl
  | _ :: _ :: _ => simp [Operator.shown]

@[simp] theorem text_normal (f : Form) (place : Place) : f.normal.text place = f.text place := by
  induction f using Form.induct generalizing place with
  | number | symbol => rfl
  | call callee args ih =>
    have hargs : args.map (fun f => f.normal.text .call) = args.map (text .call) :=
      List.map_congr_left fun f hf => ih f hf .call
    simp [text, Function.comp_def, hargs]
  | binary op operands ih =>
    have hoperands : operands.map (fun f => f.normal.text .binary) = operands.map (text .binary) :=
      List.map_congr_left fun f hf => ih f hf .binary
    have hshown := intercalate_shown op (operands.map (text .binary))
    rw [List.length_map] at hshown
    simp only [normal_binary, text, texts_eq_map, List.map_map, Function.comp_def, hoperands,
      hshown]
  | declare name inits ih =>
    cases inits with
    | nil => rfl
    | cons init rest => simp [text, binding_normal, ih init List.mem_cons_self]
  | cond test conseq alts iht ihc iha =>
    cases alts with
    | nil => simp [text, iht, ihc]
    | cons alt rest => simp [text, otherwise, iht, ihc, iha alt List.mem_cons_self]

end Form

theorem render_lower_eq_text {program : List Form}
    (h : ∀ name, Form.declare name [] ∉ program.flatMap Form.kept) :
    Form.IsText Form.text ∧
      render (lower program) = .ok ("\n".intercalate (program.map (Form.text .program))) ∧
      ∀ other, other.map Form.prune = program.map Form.prune →
        render (lower other) = render (lower program) := by
  refine ⟨Form.isText_text, Form.render_of_forall_kept h, ?_⟩
  intro other hother
  rw [← Form.lower_map_prune other, hother, Form.lower_map_prune]

theorem render_lower_eq_text_nested :
    let program : List Form := [.cond (.binary .eq [.symbol "x", .call "f" []])
      (.declare "y" [.symbol "v", .declare "u" []])
      [.declare "z" [.cond (.number "1") (.call "g" [.call "h" []]) []], .declare "u" []]]
    (∀ name, Form.declare name [] ∉ program.flatMap Form.kept) ∧
      render (lower program) = .ok ("if (x == f()) \x7b\n var a = char *y = \"v\";;\n\x7d" ++
        "\nelse \x7b\n var b = int z = if 1 \x7b\n var a = g(h());;\n\x7d;;\n\x7d") ∧
      render (lower (program.map Form.prune)) = render (lower program) := by
  intro program
  have hkept : ∀ name, Form.declare name [] ∉ program.flatMap Form.kept := by
    simp [program, Form.kept, Form.keptAll, Form.keptFirst]
  have htext := render_lower_eq_text hkept
  refine ⟨hkept, htext.2.1.trans ?_, htext.2.2 (program.map Form.prune) ?_⟩
  · decide +kernel
  · rfl

end Lisplet
