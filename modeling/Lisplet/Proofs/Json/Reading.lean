import Lisplet.Json
import Lisplet.Text

/-!
Reading JSON: one pass over the characters, with a stack of what is open. It reads every value back
from its indented text.
-/

namespace Lisplet.Json

open Text (scalar? shortEscape?)

@[elab_as_elim]
theorem induct {motive : Json → Prop}
    (string : ∀ text, motive (string text))
    (array : ∀ items, (∀ v ∈ items, motive v) → motive (array items))
    (object : ∀ fields, (∀ f ∈ fields, motive f.2) → motive (object fields))
    (v : Json) : motive v :=
  Json.rec (motive_1 := motive) (motive_2 := fun vs => ∀ v ∈ vs, motive v)
    (motive_3 := fun fs => ∀ f ∈ fs, motive f.2) (motive_4 := fun f => motive f.2)
    string array object (by simp)
    (fun _ _ hv hvs w hw => (List.mem_cons.1 hw).elim (fun h => h ▸ hv) (hvs w)) (by simp)
    (fun _ _ hf hfs g hg => (List.mem_cons.1 hg).elim (fun h => h ▸ hf) (hfs g))
    (fun _ _ hv => hv) v

inductive Enclosing
  | array (items : List Json)
  | object (fields : List (String × Json)) (name : Option String)

namespace Enclosing

def add : Enclosing → Json → Option Enclosing
  | array items, v => some (array (v :: items))
  | object fields (some name), v => some (object ((name, v) :: fields) none)
  | object fields none, string name => some (object fields (some name))
  | object _ none, _ => none

def close : Enclosing → Char → Option Json
  | array items, ']' => some (.array items.reverse)
  | object fields none, '\x7d' => some (.object fields.reverse)
  | _, _ => none

end Enclosing

inductive Mode
  | layout
  | text (read : List Char)
  | escape (read : List Char)
  | code (read digits : List Char)

/-- The whole text is read as the items of one more array. -/
structure Reader where
  mode : Mode := .layout
  top : Enclosing := .array []
  below : List Enclosing := []

namespace Reader

def add (r : Reader) (v : Json) : Option Reader :=
  (r.top.add v).map fun top => { r with mode := .layout, top }

def enter (r : Reader) (inner : Enclosing) : Reader :=
  { r with top := inner, below := r.top :: r.below }

def close (r : Reader) (c : Char) : Option Reader :=
  match r.below with
  | [] => none
  | outer :: below => (r.top.close c).bind fun v => add { r with top := outer, below } v

def stepLayout (r : Reader) (c : Char) : Option Reader :=
  if c = '"' then some { r with mode := .text [] }
  else if c = '[' then some (r.enter (.array []))
  else if c = '\x7b' then some (r.enter (.object [] none))
  else if c ∈ [']', '\x7d'] then r.close c
  else if c ∈ [' ', '\n', ',', ':'] then some r
  else none

def step (r : Reader) (c : Char) : Option Reader :=
  match r.mode with
  | .layout => r.stepLayout c
  | .text read =>
    if c = '"' then r.add (.string (String.ofList read.reverse))
    else if c = '\\' then some { r with mode := .escape read }
    else some { r with mode := .text (c :: read) }
  | .escape read =>
    if c = 'u' then some { r with mode := .code read [] }
    else (shortEscape? c).map fun d => { r with mode := .text (d :: read) }
  | .code read digits =>
    if digits.length < 3 then some { r with mode := .code read (c :: digits) }
    else (scalar? (c :: digits).reverse).map fun d => { r with mode := .text (d :: read) }

def run (r : Reader) (cs : List Char) : Option Reader := cs.foldlM step r

end Reader

def read? (text : String) : Option Json :=
  match Reader.run {} text.toList with
  | some ⟨.layout, .array [v], []⟩ => some v
  | _ => none

namespace Reader

@[simp] theorem run_nil (r : Reader) : r.run [] = some r := rfl

theorem run_cons (r : Reader) (c : Char) (cs : List Char) :
    r.run (c :: cs) = (r.step c).bind fun r' => r'.run cs := rfl

theorem run_append (r : Reader) (cs ds : List Char) :
    r.run (cs ++ ds) = (r.run cs).bind fun r' => r'.run ds := List.foldlM_append

section

variable {top : Enclosing} {below : List Enclosing} {read : List Char}

theorem scalar?_hexDigit {c : Char} (h : c.toNat < 0x20) :
    scalar? ['0', '0', hexDigit (c.toNat / 16), hexDigit c.toNat] = some c := by
  have hall : ∀ n < 0x20,
      scalar? ['0', '0', hexDigit (n / 16), hexDigit n] = some (Char.ofNat n) := by
    decide
  rw [hall c.toNat h, Char.ofNat_toNat]

theorem run_escape (c : Char) :
    run ⟨.text read, top, below⟩ (escape c) = some ⟨.text (c :: read), top, below⟩ := by
  by_cases hshort : c ∈ ['"', '\\', '\n', '\r', '\t', '\x08', '\x0c']
  · simp only [List.mem_cons, List.not_mem_nil, or_false] at hshort
    rcases hshort with rfl | rfl | rfl | rfl | rfl | rfl | rfl <;> rfl
  · simp only [List.mem_cons, List.not_mem_nil, or_false, not_or] at hshort
    obtain ⟨hquote, hslash, hn, hr, ht, hb, hf⟩ := hshort
    simp only [escape, hquote, hslash, hn, hr, ht, hb, hf, if_false]
    split
    · next hcontrol => simp [run_cons, step, scalar?_hexDigit hcontrol]
    · simp [run_cons, step, hquote, hslash]

theorem run_escapes (cs : List Char) :
    run ⟨.text read, top, below⟩ (cs.flatMap escape) =
      some ⟨.text (cs.reverse ++ read), top, below⟩ := by
  induction cs generalizing read with
  | nil => rfl
  | cons c cs ih =>
    rw [List.flatMap_cons, run_append, run_escape, Option.bind_some, ih]
    simp

theorem run_quote (text : String) :
    run ⟨.layout, top, below⟩ (quote text).toList = add ⟨.layout, top, below⟩ (.string text) := by
  rw [quote, String.toList_ofList, List.cons_append, run_cons]
  change run ⟨.text [], top, below⟩ _ = _
  rw [run_append, run_escapes, Option.bind_some, run_cons]
  simp [step, add]

theorem run_blanks (n : Nat) :
    run ⟨.layout, top, below⟩ (List.replicate n ' ') = some ⟨.layout, top, below⟩ := by
  induction n with
  | zero => rfl
  | succ n ih => exact ih

theorem run_newline (depth : Nat) :
    run ⟨.layout, top, below⟩ (newline depth).toList = some ⟨.layout, top, below⟩ := by
  have hbreak : run ⟨.layout, top, below⟩ "\n".toList = some ⟨.layout, top, below⟩ := rfl
  rw [newline, String.toList_append, run_append, hbreak, Option.bind_some, String.toList_ofList,
    run_blanks]

theorem run_intercalate_cons {r : Reader} {t : String} {ts : List String}
    (h : r.run t.toList = some ⟨.layout, top, below⟩) :
    r.run (",".intercalate (t :: ts)).toList =
      run ⟨.layout, top, below⟩ (",".intercalate ts).toList := by
  cases ts with
  | nil => rw [String.intercalate_singleton, h, String.intercalate_nil]; rfl
  | cons u us =>
    rw [String.intercalate_cons_cons, String.toList_append, String.toList_append, run_append,
      run_append, h]
    rfl

def Reads (v : Json) : Prop :=
  ∀ depth top below,
    run ⟨.layout, top, below⟩ (v.renderAt depth).toList = add ⟨.layout, top, below⟩ v

theorem run_renderItems {vs : List Json} (h : ∀ v ∈ vs, Reads v) (depth : Nat) (items : List Json) :
    run ⟨.layout, .array items, below⟩ (",".intercalate (renderItems depth vs)).toList =
      some ⟨.layout, .array (vs.reverse ++ items), below⟩ := by
  induction vs generalizing items with
  | nil => rfl
  | cons v vs ih =>
    obtain ⟨hv, hvs⟩ := List.forall_mem_cons.mp h
    have hitem : run ⟨.layout, .array items, below⟩ (newline depth ++ v.renderAt depth).toList =
        some ⟨.layout, .array (v :: items), below⟩ := by
      rw [String.toList_append, run_append, run_newline, Option.bind_some, hv]
      rfl
    rw [renderItems, run_intercalate_cons hitem, ih hvs, List.reverse_cons, List.append_assoc]
    rfl

theorem run_renderFields {fs : List (String × Json)} (h : ∀ f ∈ fs, Reads f.2) (depth : Nat)
    (fields : List (String × Json)) :
    run ⟨.layout, .object fields none, below⟩ (",".intercalate (renderFields depth fs)).toList =
      some ⟨.layout, .object (fs.reverse ++ fields) none, below⟩ := by
  induction fs generalizing fields with
  | nil => rfl
  | cons f fs ih =>
    obtain ⟨name, v⟩ := f
    obtain ⟨hv, hfs⟩ := List.forall_mem_cons.mp h
    have hfield : run ⟨.layout, .object fields none, below⟩
        (newline depth ++ quote name ++ ": " ++ v.renderAt depth).toList =
        some ⟨.layout, .object ((name, v) :: fields) none, below⟩ := by
      simp only [String.toList_append, run_append, run_newline, Option.bind_some, run_quote]
      exact hv depth (.object fields (some name)) below
    rw [renderFields, run_intercalate_cons hfield, ih hfs, List.reverse_cons, List.append_assoc]
    rfl

theorem reads (v : Json) : Reads v := by
  induction v using Json.induct with
  | string text =>
    intro depth top below
    exact run_quote text
  | array items ih =>
    intro depth top below
    cases items with
    | nil => simp [renderAt, run_cons, step, stepLayout, enter, close, Enclosing.close]
    | cons v vs =>
      simp only [renderAt, String.toList_append, run_append]
      change (((run ⟨.layout, .array [], top :: below⟩ _).bind _).bind _) = _
      rw [run_renderItems ih, Option.bind_some, run_newline, Option.bind_some]
      simp [run_cons, step, stepLayout, close, Enclosing.close]
  | object fields ih =>
    intro depth top below
    cases fields with
    | nil => simp [renderAt, run_cons, step, stepLayout, enter, close, Enclosing.close]
    | cons f fs =>
      simp only [renderAt, String.toList_append, run_append]
      change (((run ⟨.layout, .object [] none, top :: below⟩ _).bind _).bind _) = _
      rw [run_renderFields ih, Option.bind_some, run_newline, Option.bind_some]
      simp [run_cons, step, stepLayout, close, Enclosing.close]

end

end Reader

theorem read?_pretty (v : Json) : read? v.pretty = some v := by
  rw [read?, pretty, Reader.reads v]
  rfl

end Lisplet.Json
