import Lisplet.Settings

namespace Lisplet.Settings

open Toml (Table Value)

inductive Section
  | compile | log

theorem Section.forall_iff {p : Section → Prop} : (∀ c, p c) ↔ p .compile ∧ p .log := by
  constructor
  · intro h
    exact ⟨h .compile, h .log⟩
  · rintro ⟨hc, hl⟩ c
    cases c with
    | compile => exact hc
    | log => exact hl

def Section.name : Section → String
  | compile => "compile"
  | log => "log"

def Section.size : Section → Nat
  | compile => 2
  | log => 1

def Section.of (c : Section) (t : Table) : Value := (t.get? c.name).getD (.table [])

inductive Setting
  | debug | maxDepth | filter

namespace Setting

theorem forall_iff {p : Setting → Prop} : (∀ x, p x) ↔ p .debug ∧ p .maxDepth ∧ p .filter := by
  constructor
  · intro h
    exact ⟨h .debug, h .maxDepth, h .filter⟩
  · rintro ⟨hd, hm, hf⟩ x
    cases x with
    | debug => exact hd
    | maxDepth => exact hm
    | filter => exact hf

abbrev Content : Setting → Type
  | debug => Bool
  | maxDepth => Nat
  | filter => String

def home : Setting → Section
  | debug | maxDepth => .compile
  | filter => .log

def key : Setting → String
  | debug => "debug"
  | maxDepth => "max_depth"
  | filter => "filter"

def position : Setting → Nat
  | debug | filter => 0
  | maxDepth => 1

def default : (x : Setting) → x.Content
  | debug => false
  | maxDepth => defaultMaxDepth
  | filter => "warn"

def read (route : Route) : (x : Setting) → Value → Option x.Content
  | debug => readBoolean
  | maxDepth => readNatural
  | filter => route.readText

def get : (x : Setting) → Settings → x.Content
  | debug => Settings.debug
  | maxDepth => Settings.maxDepth
  | filter => Settings.filter

def given? (x : Setting) (t : Table) : Option Value := member? x.key x.position (x.home.of t)

def value? (route : Route) (x : Setting) (t : Table) : Option x.Content :=
  (x.given? t).bind (x.read route)

theorem isTable_eq_false_of_read {route : Route} {x : Setting} {v : Value} {a : x.Content}
    (h : x.read route v = some a) : v.isTable = false := by
  cases v with
  | table => cases x <;> cases h
  | string | integer | float | boolean | instant | array => rfl

end Setting

structure Readable (route : Route) (t : Table) : Prop where
  sections : ∀ c : Section, route.isSection c.size (c.of t)
  members : ∀ x : Setting, ∀ v ∈ x.given? t, ∃ a, x.read route v = some a

theorem guard_bind_eq_some_iff {α : Type} {p : Prop} [Decidable p] {f : Unit → Option α} {a : α} :
    (guard p >>= f) = some a ↔ p ∧ f () = some a := by
  change (if p then some () else none).bind f = some a ↔ p ∧ f () = some a
  by_cases h : p <;> simp [h]

section

variable {route : Route} {t : Table} {st : Settings}

theorem read_eq_some_iff :
    Settings.read route t = some st ↔
      (∀ c : Section, route.isSection c.size (c.of t)) ∧
        ∀ x : Setting, ifGiven x.default (x.read route) (x.given? t) = some (x.get st) := by
  rw [Section.forall_iff, Setting.forall_iff]
  obtain ⟨d, m, f⟩ := st
  dsimp only [Settings.read, Section.of, Section.name, Section.size, Setting.given?, Setting.home,
    Setting.key, Setting.position, Setting.default, Setting.read, Setting.get]
  rw [guard_bind_eq_some_iff, Bool.and_eq_true]
  simp only [Option.bind_eq_bind, Option.bind_eq_some_iff, Option.pure_def, Option.some.injEq,
    Settings.mk.injEq]
  constructor
  · rintro ⟨hsections, _, hd, _, hm, _, hf, rfl, rfl, rfl⟩
    exact ⟨hsections, hd, hm, hf⟩
  · rintro ⟨hsections, hd, hm, hf⟩
    exact ⟨hsections, d, hd, m, hm, f, hf, rfl, rfl, rfl⟩

theorem readable_of_read (h : Settings.read route t = some st) : Readable route t where
  sections := (read_eq_some_iff.mp h).1
  members x v hv := by
    have hx := (read_eq_some_iff.mp h).2 x
    rw [Option.mem_def.mp hv] at hx
    exact ⟨_, hx⟩

theorem get_of_read (h : Settings.read route t = some st) (x : Setting) :
    x.get st = (x.value? route t).getD x.default := by
  have hx := (read_eq_some_iff.mp h).2 x
  unfold Setting.value?
  cases hg : x.given? t with
  | none =>
    rw [hg] at hx
    exact (Option.some.inj hx).symm
  | some v =>
    rw [hg] at hx
    exact (congrArg (Option.getD · x.default) hx).symm

theorem Readable.exists_read (h : Readable route t) : ∃ st, Settings.read route t = some st := by
  have chosen (x : Setting) :
      ifGiven x.default (x.read route) (x.given? t) = some ((x.value? route t).getD x.default) := by
    unfold Setting.value?
    cases hg : x.given? t with
    | none => rfl
    | some v =>
      obtain ⟨a, ha⟩ := h.members x v hg
      simp only [ifGiven, Option.bind_some, ha, Option.getD_some]
  refine ⟨⟨(Setting.debug.value? route t).getD Setting.debug.default,
    (Setting.maxDepth.value? route t).getD Setting.maxDepth.default,
    (Setting.filter.value? route t).getD Setting.filter.default⟩,
    read_eq_some_iff.mpr ⟨h.sections, fun x => ?_⟩⟩
  cases x <;> exact chosen _

end

end Lisplet.Settings
