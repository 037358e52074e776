import Lisplet.Code.Render
import Lisplet.Proofs.Code.Wrapping
import Lisplet.Proofs.Form.Grammar
import Mathlib.Logic.Function.Iterate

/-!
Descent: how far down the trees of a program lead. The limit of a parse holds for its forms, and
twice over for their code, in which every compound form may be a statement.
-/

namespace Lisplet

def Descends (children : α → List α) : List α → List α → Prop
  | _, [] => True
  | roots, a :: path => a ∈ roots ∧ Descends children (children a) path

namespace Descends

variable {children : α → List α} {roots path : List α}

theorem eq_nil (h : Descends children [] path) : path = [] := by
  cases path with
  | nil => rfl
  | cons a path => exact absurd h.1 List.not_mem_nil

theorem mono {more : List α} (h : Descends children roots path) (hroots : roots ⊆ more) :
    Descends children more path := by
  cases path with
  | nil => trivial
  | cons a path => exact ⟨hroots h.1, h.2⟩

theorem cons {a : α} (ha : a ∈ roots) (h : Descends children (children a) path) :
    Descends children roots (a :: path) :=
  ⟨ha, h⟩

end Descends

namespace Form

theorem exists_depth_le_of_isCompound {f : Form} {n : Nat} (hf : f.isCompound) (h : f.depth ≤ n) :
    ∃ m, n = m + 1 ∧ ∀ g ∈ f.children, g.depth ≤ m := by
  rw [depth_of_isCompound hf] at h
  obtain ⟨m, rfl⟩ := Nat.exists_eq_add_of_le' (Nat.le_trans (Nat.le_add_left 1 _) h)
  exact ⟨m, rfl, depthAll_le_iff.1 (Nat.le_of_succ_le_succ h)⟩

theorem length_le_of_descends {fs path : List Form} {n : Nat} (h : Descends children fs path)
    (hfs : ∀ f ∈ fs, f.depth ≤ n) : path.length ≤ n + 1 := by
  induction path generalizing fs n with
  | nil => exact Nat.zero_le _
  | cons f path ih =>
    obtain ⟨hf, h⟩ := h
    cases hc : f.isCompound with
    | true =>
      obtain ⟨m, rfl, hchildren⟩ := exists_depth_le_of_isCompound hc (hfs f hf)
      exact Nat.succ_le_succ (ih h hchildren)
    | false =>
      have hnil : f.children = [] := by
        cases f with
        | number | symbol => rfl
        | call | binary | declare | cond => cases hc
      rw [hnil] at h
      rw [h.eq_nil]
      exact Nat.le_add_left 1 n

theorem isCompound_of_place? {f : Form} {inner : Place} (h : f.place? = some inner) :
    f.isCompound := by
  cases f with
  | number | symbol => cases h
  | call | binary | declare | cond => rfl

end Form

namespace Code

structure PathWithin (n : Nat) (path : List Code) : Prop where
  length_le : path.length ≤ 2 * n + 1
  bare_le : path.countP (!·.isStatement) ≤ n + 1

theorem PathWithin.of_length_le_one {n : Nat} {path : List Code} (h : path.length ≤ 1) :
    PathWithin n path where
  length_le := by omega
  bare_le := (List.countP_le_length.trans h).trans (Nat.le_add_left 1 n)

theorem isStatement_eq_false {c : Code} (h : c.isCompound) : c.isStatement = false := by
  cases c with
  | call | binary | declare | cond => rfl
  | statement | identifier | operator | number | string => cases h

theorem pathWithin_seat {place child : Place} {c : Code} {n : Nat} {path : List Code}
    (hc : c.isCompound) (h : Descends children [place.seat child c] path)
    (hrest : ∀ rest, Descends children c.children rest → PathWithin n rest) :
    PathWithin (n + 1) path := by
  have hself : ∀ p, Descends children [c] p →
      p.length ≤ 2 * n + 2 ∧ p.countP (!·.isStatement) ≤ n + 2 := by
    intro p hp
    cases p with
    | nil => exact ⟨Nat.zero_le _, Nat.zero_le _⟩
    | cons d p =>
      obtain ⟨hd, hp⟩ := hp
      rw [List.mem_singleton.1 hd] at hp ⊢
      obtain ⟨hlength, hbare⟩ := hrest p hp
      rw [List.length_cons, List.countP_cons, isStatement_eq_false hc]
      exact ⟨Nat.succ_le_succ hlength, Nat.succ_le_succ hbare⟩
  rw [Place.seat] at h
  split at h
  · cases path with
    | nil => exact .of_length_le_one (Nat.zero_le 1)
    | cons d path =>
      obtain ⟨hd, h⟩ := h
      rw [List.mem_singleton.1 hd] at h ⊢
      obtain ⟨hlength, hbare⟩ := hself path h
      constructor
      · rw [List.length_cons]
        omega
      · rw [List.countP_cons]
        exact hbare
  · obtain ⟨hlength, hbare⟩ := hself path h
    exact ⟨by omega, hbare⟩

end Code

theorem Form.pathWithin_lower {f : Form} {place : Place} {n : Nat} {path : List Code}
    (hf : f.depth ≤ n) (h : Descends Code.children [f.lower place] path) :
    Code.PathWithin n path := by
  induction f using inductChildren generalizing place n path with
  | node f ih =>
    cases hp : f.place? with
    | none =>
      apply Code.PathWithin.of_length_le_one
      cases path with
      | nil => exact Nat.zero_le 1
      | cons c path =>
        obtain ⟨hc, h⟩ := h
        obtain ⟨text, rfl | rfl⟩ := exists_literal_of_place? hp
        all_goals
          rw [List.mem_singleton.1 hc] at h
          rw [Descends.eq_nil h]
          exact Nat.le_refl 1
    | some inner =>
      obtain ⟨c, hc, hlower, hchildren⟩ := exists_lower_eq_seat hp place
      obtain ⟨m, rfl, hm⟩ := exists_depth_le_of_isCompound (isCompound_of_place? hp) hf
      rw [hlower] at h
      apply Code.pathWithin_seat hc h
      intro rest hrest
      cases rest with
      | nil => exact .of_length_le_one (Nat.zero_le 1)
      | cons d rest =>
        obtain ⟨hd, hrest⟩ := hrest
        rw [hchildren, List.mem_map] at hd
        obtain ⟨g, hg, rfl⟩ := hd
        have hmem := f.keptChildren_subset hg
        exact ih g hmem (hm g hmem) (.cons List.mem_cons_self hrest)

theorem pathWithin_lower {program : List Form} {n : Nat} {path : List Code}
    (hp : ∀ f ∈ program, f.depth ≤ n) (h : Descends Code.children (lower program) path) :
    Code.PathWithin n path := by
  cases path with
  | nil => exact .of_length_le_one (Nat.zero_le 1)
  | cons c path =>
    obtain ⟨hc, h⟩ := h
    rw [lower, Form.lowerAll_eq_map, List.mem_map] at hc
    obtain ⟨f, hf, rfl⟩ := hc
    exact Form.pathWithin_lower (hp f hf) (.cons List.mem_cons_self h)

namespace Code

/-- One call of `render`, which hands on to `go` what is in the code. -/
def renderBy (go : Code → Except RenderError String) : Code → Except RenderError String
  | statement c => do return (← go c) ++ c.terminator
  | call callee args => do return callee ++ "(" ++ ", ".intercalate (← args.mapM go) ++ ")"
  | binary op operands => do
    return "(" ++ (" " ++ op ++ " ").intercalate (← operands.mapM go) ++ ")"
  | declare name [] => .error (.missingInitializer name)
  | declare name [string text] => .ok ("char *" ++ name ++ " = \"" ++ text ++ "\"")
  | declare name [c] => do return "int " ++ name ++ " = " ++ (← go c)
  | declare name (c :: d :: rest) => .error (.extraInitializers name (c :: d :: rest).length)
  | cond [condition, conseq] => do
    return "if " ++ (← go condition) ++ block "a" (← go conseq)
  | cond [condition, conseq, alt] => do
    return "if " ++ (← go condition) ++ block "a" (← go conseq) ++
      "\nelse" ++ block "b" (← go alt)
  | cond slots => .error (.incompleteConditional slots.length)
  | identifier text | operator text | number text | string text => .ok text

theorem renderAll_eq_mapM (codes : List Code) : renderAll codes = codes.mapM render := by
  induction codes with
  | nil => rfl
  | cons c codes ih => rw [renderAll, List.mapM_cons, ih]

theorem renderBy_render (c : Code) : renderBy render c = c.render := by
  fun_cases renderBy render c <;> simp_all [render, renderAll_eq_mapM]

section

variable {go stop : Code → Except RenderError String}

theorem mapM_congr {codes : List Code} (h : ∀ c ∈ codes, go c = stop c) :
    codes.mapM go = codes.mapM stop := by
  induction codes with
  | nil => rfl
  | cons c codes ih =>
    rw [List.forall_mem_cons] at h
    rw [List.mapM_cons, List.mapM_cons, h.1, ih h.2]

theorem renderBy_congr {c : Code} (h : ∀ d ∈ c.children, go d = stop d) :
    renderBy go c = renderBy stop c := by
  cases c with
  | statement c => rw [renderBy, renderBy, h c List.mem_cons_self]
  | call callee args =>
    have hargs : args.mapM go = args.mapM stop := mapM_congr h
    rw [renderBy, renderBy, hargs]
  | binary op operands =>
    have hoperands : operands.mapM go = operands.mapM stop := mapM_congr h
    rw [renderBy, renderBy, hoperands]
  | declare name inits =>
    match inits with
    | [] => rfl
    | c :: d :: rest => rw [renderBy, renderBy]
    | [c] =>
      have hc : go c = stop c := h c List.mem_cons_self
      cases c with
      | string => rfl
      | statement | call | binary | declare | cond | identifier | operator | number =>
        simp only [renderBy, hc]
  | cond slots =>
    match slots with
    | [] | [_] | _ :: _ :: _ :: _ :: _ => rfl
    | [condition, conseq] =>
      simp only [children, List.forall_mem_cons] at h
      rw [renderBy, renderBy, h.1, h.2.1]
    | [condition, conseq, alt] =>
      simp only [children, List.forall_mem_cons] at h
      rw [renderBy, renderBy, h.1, h.2.1, h.2.2.1]
  | identifier | operator | number | string => rfl

end

/-- Calls nested `n` deep, with `stop` in place of deeper ones, render code in which no path is
longer than `n`. -/
theorem iterate_renderBy {c : Code} {n : Nat}
    (h : ∀ path, Descends children [c] path → path.length ≤ n)
    (stop : Code → Except RenderError String) : (renderBy^[n] stop) c = c.render := by
  induction n generalizing c with
  | zero =>
    have hself := h [c] (.cons List.mem_cons_self trivial)
    exact absurd hself (Nat.not_succ_le_zero 0)
  | succ n ih =>
    rw [Function.iterate_succ_apply', ← renderBy_render c]
    apply renderBy_congr
    intro d hd
    apply ih
    intro path hpath
    have hchild : Descends children c.children path :=
      hpath.mono (List.cons_subset.2 ⟨hd, List.nil_subset _⟩)
    exact Nat.le_of_succ_le_succ (h (c :: path) (.cons List.mem_cons_self hchild))

end Code

namespace Form

def tower : Place → Nat → Form
  | _, 0 => number "0"
  | .cond, n + 1 => declare "x" [tower .declare n]
  | .program, n + 1 | .call, n + 1 | .binary, n + 1 | .declare, n + 1 =>
    cond (tower .cond n) (number "0") []

theorem exists_tower_succ (place : Place) (n : Nat) :
    ∃ inner rest, (tower place (n + 1)).place? = some inner ∧
      (tower place (n + 1)).children = tower inner n :: rest ∧
      (tower place (n + 1)).keptChildren = tower inner n :: rest ∧
      (∀ f ∈ rest, f = number "0") ∧ place.wraps inner := by
  cases place with
  | cond => exact ⟨.declare, [], rfl, rfl, rfl, by simp, rfl⟩
  | program | call | binary | declare => exact ⟨.cond, [number "0"], rfl, rfl, rfl, by simp, rfl⟩

theorem fits_tower {limit : Nat} (place : Place) (n : Nat) {k : Nat} (h : k + n ≤ limit) :
    (tower place n).Fits limit k := by
  induction n generalizing place k with
  | zero => exact fits_of_not_isCompound rfl h
  | succ n ih =>
    obtain ⟨inner, rest, hplace, hchildren, -, hrest, -⟩ := exists_tower_succ place n
    rw [fits_iff_of_isCompound (isCompound_of_place? hplace), hchildren, List.forall_mem_cons]
    refine ⟨by omega, ?_, ih inner (by omega), ?_⟩
    · intro name hname
      rw [hname] at hchildren
      cases hchildren
    · intro f hf
      rw [hrest f hf]
      exact fits_of_not_isCompound rfl (by omega)

theorem exists_descends_tower (place : Place) (n : Nat) :
    ∃ path leaf, Descends Code.children [(tower place n).lower place] (path ++ [leaf]) ∧
      leaf.children = [] ∧ path.length = 2 * n := by
  induction n generalizing place with
  | zero => exact ⟨[], .number "0", .cons List.mem_cons_self trivial, rfl, rfl⟩
  | succ n ih =>
    obtain ⟨inner, rest, hplace, -, hkept, -, hwraps⟩ := exists_tower_succ place n
    obtain ⟨c, -, hlower, hchildren⟩ := exists_lower_eq_seat hplace place
    obtain ⟨path, leaf, hpath, hleaf, hlength⟩ := ih inner
    rw [Place.seat, if_pos hwraps] at hlower
    rw [hkept, List.map_cons] at hchildren
    refine ⟨.statement c :: c :: path, leaf, ?_, hleaf, ?_⟩
    · rw [hlower]
      have hinner : Descends Code.children c.children (path ++ [leaf]) := by
        rw [hchildren]
        exact hpath.mono (List.cons_subset_cons _ (List.nil_subset _))
      exact .cons List.mem_cons_self (.cons List.mem_cons_self hinner)
    · simp only [List.length_cons, hlength]
      omega

theorem exists_heads {f : Form} (h : f.isCompound) : ∃ ls, f.Heads ls := by
  cases f with
  | number | symbol => cases h
  | call | declare | cond => exact ⟨_, rfl⟩
  | binary => exact ⟨_, .inl rfl⟩

theorem exists_spells_of_forall {fs : List Form} (h : ∀ f ∈ fs, ∃ ls, Spells [f] ls) :
    ∃ ls, Spells fs ls := by
  induction fs with
  | nil => exact ⟨[], .nil⟩
  | cons f fs ih =>
    rw [List.forall_mem_cons] at h
    obtain ⟨ls, hls⟩ := h.1
    obtain ⟨ms, hms⟩ := ih h.2
    exact ⟨ls ++ ms, hls.append hms⟩

theorem exists_spells (f : Form) : ∃ ls, Spells [f] ls := by
  induction f using inductChildren with
  | node f ih =>
    cases hf : f.isCompound with
    | true =>
      obtain ⟨head, hhead⟩ := exists_heads hf
      obtain ⟨ms, hms⟩ := exists_spells_of_forall ih
      exact ⟨_, .compound hhead hms .nil⟩
    | false =>
      cases f with
      | number text => exact ⟨_, .number .nil⟩
      | symbol text => exact ⟨_, .symbol .nil⟩
      | call | binary | declare | cond => cases hf

end Form

theorem exists_parse_eq {limit : Nat} {program : List Form} (h : ∀ f ∈ program, f.Fits limit 0) :
    ∃ tokens, parse tokens limit = .ok program := by
  obtain ⟨ls, hls⟩ := Form.exists_spells_of_forall fun f (_ : f ∈ program) => f.exists_spells
  refine ⟨ls.map fun l => ⟨l, {}⟩, parse_of_grammatical ⟨?_, ?_, ?_⟩⟩
  · simpa [Function.comp_def] using hls
  · exact fun f hf => (h f hf).initialized
  · exact fun f hf => by simpa using (h f hf).depth_le

/-- The limit bounds the forms of a program that is parsed, its code and the calls that render it,
and the bound on the code is met. -/
theorem parse_bounds_descent :
    (∀ tokens limit program, parse tokens limit = .ok program →
      (∀ path, Descends Form.children program path → path.length ≤ limit + 1) ∧
      (∀ path, Descends Code.children (lower program) path →
        path.length ≤ 2 * limit + 1 ∧ path.countP (!·.isStatement) ≤ limit + 1) ∧
      ∀ stop, ∀ c ∈ lower program, (Code.renderBy^[2 * limit + 1] stop) c = c.render) ∧
    ∀ limit, ∃ tokens program, parse tokens limit = .ok program ∧
      ∃ path leaf, Descends Code.children (lower program) (path ++ [leaf]) ∧
        leaf.children = [] ∧ (path ++ [leaf]).length = 2 * limit + 1 := by
  constructor
  · intro tokens limit program h
    have hdepth := (grammatical_of_parse h).depth_le
    refine ⟨?forms, ?code, ?calls⟩
    case forms => exact fun path hpath => Form.length_le_of_descends hpath hdepth
    case code =>
      intro path hpath
      obtain ⟨hlength, hbare⟩ := pathWithin_lower hdepth hpath
      exact ⟨hlength, hbare⟩
    case calls =>
      intro stop c hc
      apply Code.iterate_renderBy
      intro path hpath
      have hprogram := hpath.mono (List.cons_subset.2 ⟨hc, List.nil_subset _⟩)
      exact (pathWithin_lower hdepth hprogram).length_le
  · intro limit
    have hfits : ∀ f ∈ [Form.tower .program limit], f.Fits limit 0 := by
      rw [List.forall_mem_singleton]
      exact Form.fits_tower .program limit (Nat.le_of_eq (Nat.zero_add limit))
    obtain ⟨tokens, htokens⟩ := exists_parse_eq hfits
    obtain ⟨path, leaf, hpath, hleaf, hlength⟩ := Form.exists_descends_tower .program limit
    refine ⟨tokens, _, htokens, path, leaf, hpath, hleaf, ?_⟩
    rw [List.length_append, hlength]
    rfl

theorem parse_bounds_descent_nested :
    let tokens : List Token := [⟨.opening, ⟨0, 1⟩⟩, ⟨⟨.keyword, "if"⟩, ⟨1, 3⟩⟩,
      ⟨⟨.name, "x"⟩, ⟨4, 5⟩⟩, ⟨.opening, ⟨6, 7⟩⟩, ⟨⟨.keyword, "defvar"⟩, ⟨7, 13⟩⟩,
      ⟨⟨.name, "y"⟩, ⟨14, 15⟩⟩, ⟨⟨.number, "1"⟩, ⟨16, 17⟩⟩, ⟨.closing, ⟨17, 18⟩⟩,
      ⟨.closing, ⟨18, 19⟩⟩]
    let program : List Form := [.cond (.symbol "x") (.declare "y" [.number "1"]) []]
    let inner : Code := .declare "y" [.number "1"]
    let outer : Code := .cond [.string "x", .statement inner]
    let path : List Code := [.statement outer, outer, .statement inner, inner, .number "1"]
    parse tokens 2 = .ok program ∧ Descends Code.children (lower program) path ∧
      path.length ≤ 5 ∧ path.countP (!·.isStatement) ≤ 3 := by
  intro tokens program inner outer path
  have hparse : parse tokens 2 = .ok program := rfl
  have hpath : Descends Code.children (lower program) path := by
    refine .cons ?_ (.cons ?_ (.cons ?_ (.cons ?_ (.cons ?_ trivial))))
    all_goals simp [program, lower, Form.lower, Form.lowerAll, Form.lowerFirst, Place.seat,
      Place.wraps, Code.children, inner, outer]
  exact ⟨hparse, hpath, (parse_bounds_descent.1 tokens 2 program hparse).2.1 path hpath⟩

end Lisplet
