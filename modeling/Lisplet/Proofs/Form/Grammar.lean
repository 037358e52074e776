import Lisplet.Form.Parse
import Lisplet.Proofs.Form.Spelling

namespace Lisplet

namespace Frame

def form? : Frame → Option Form
  | call callee args => some (.call callee args.reverse)
  | binary op operands => some (.binary op operands.reverse)
  | declare _ [] => none
  | declare name (f :: inits) => some (.declare name (f :: inits).reverse)
  | test | consequent _ => none
  | alternatives t c alts => some (.cond t c alts.reverse)

theorem close_eq_ok_iff {frame : Frame} {t : Token} {f : Form} :
    frame.close t = .ok f ↔ frame.form? = some f := by
  cases frame with
  | declare name inits => cases inits <;> simp [close, form?]
  | _ => simp [close, form?]

def children : Frame → List Form
  | call _ fs | binary _ fs | declare _ fs => fs.reverse
  | test => []
  | consequent t => [t]
  | alternatives t c alts => t :: c :: alts.reverse

def Heads : Frame → List Lexeme → Prop
  | call callee _, ls => ls = [⟨.name, callee⟩]
  | binary op _, ls => ls = [⟨.operator, op.symbol⟩] ∨ ls = [⟨.condOperator, op.symbol⟩]
  | declare name _, ls => ls = [⟨.keyword, "defvar"⟩, ⟨.name, name⟩]
  | test, ls | consequent _, ls | alternatives _ _ _, ls => ls = [⟨.keyword, "if"⟩]

theorem children_push (frame : Frame) (f : Form) :
    (frame.push f).children = frame.children ++ [f] := by
  cases frame <;> simp [push, children]

theorem heads_push {frame : Frame} {f : Form} {ls : List Lexeme} :
    (frame.push f).Heads ls ↔ frame.Heads ls := by
  cases frame <;> rfl

theorem form?_eq_some {frame : Frame} {f : Form} (h : frame.form? = some f) :
    f.isCompound ∧ f.children = frame.children ∧ (∀ ls, f.Heads ls ↔ frame.Heads ls) ∧
      ∀ name, f ≠ .declare name [] := by
  cases frame with
  | test | consequent t => cases h
  | call | binary | alternatives =>
    cases h
    exact ⟨rfl, rfl, fun _ => Iff.rfl, by simp⟩
  | declare name inits =>
    cases inits with
    | nil => cases h
    | cons i inits =>
      cases h
      exact ⟨rfl, rfl, fun _ => Iff.rfl, by simp⟩

end Frame

def Form.frame : Form → Frame
  | number _ | symbol _ => .test
  | call callee _ => .call callee []
  | binary op _ => .binary op []
  | declare name _ => .declare name []
  | cond _ _ _ => .test

theorem Frame.foldl_push (frame : List Form → Frame)
    (h : ∀ gs f, (frame gs).push f = frame (f :: gs)) (gs fs : List Form) :
    fs.foldl push (frame gs) = frame (fs.reverse ++ gs) := by
  induction fs generalizing gs with
  | nil => rfl
  | cons f fs ih => simp [h, ih]

theorem Form.form?_frame {f : Form} (hf : f.isCompound) (hd : ∀ name, f ≠ declare name []) :
    (f.children.foldl Frame.push f.frame).form? = some f := by
  cases f with
  | number | symbol => cases hf
  | call callee args =>
    simp [children, frame, Frame.foldl_push (.call callee) fun _ _ => rfl, Frame.form?]
  | binary op operands =>
    simp [children, frame, Frame.foldl_push (.binary op) fun _ _ => rfl, Frame.form?]
  | declare name inits =>
    have hne : inits ≠ [] := fun h => hd name (h ▸ rfl)
    simp only [children, frame, Frame.foldl_push (.declare name) fun _ _ => rfl, List.append_nil]
    cases hr : inits.reverse with
    | nil => simp at hr; exact absurd hr hne
    | cons i is => rw [Frame.form?, ← hr, List.reverse_reverse]
  | cond t c alts =>
    simp [children, frame, Frame.push, Frame.foldl_push (.alternatives t c) fun _ _ => rfl,
      Frame.form?]

namespace ParseState

inductive Moves (limit : Nat) (s : ParseState) : Lexeme → ParseState → Prop
  | number {text} : s.awaiting = .form → Moves limit s ⟨.number, text⟩ (s.add (.number text))
  | symbol {text} : s.awaiting = .form → Moves limit s ⟨.name, text⟩ (s.add (.symbol text))
  | opening : s.awaiting = .form → s.frames.length < limit →
      Moves limit s .opening { s with awaiting := .head }
  | closing {frame frames f} : s.awaiting = .form → s.frames = frame :: frames →
      frame.form? = some f → Moves limit s .closing (add { s with frames } f)
  | call {callee} : s.awaiting = .head →
      Moves limit s ⟨.name, callee⟩ (s.enter (.call callee []) .form)
  | binary {kind op} : s.awaiting = .head → kind = .operator ∨ kind = .condOperator →
      Moves limit s ⟨kind, op.symbol⟩ (s.enter (.binary op []) .form)
  | defvar : s.awaiting = .head →
      Moves limit s ⟨.keyword, "defvar"⟩ { s with awaiting := .declaredName }
  | cond : s.awaiting = .head → Moves limit s ⟨.keyword, "if"⟩ (s.enter .test .form)
  | declare {name} : s.awaiting = .declaredName →
      Moves limit s ⟨.name, name⟩ (s.enter (.declare name []) .form)

theorem moves_of_step {limit : Nat} {s s' : ParseState} {t : Token}
    (h : s.step limit t = .ok s') : s.Moves limit t.toLexeme s' := by
  obtain ⟨⟨kind, literal⟩, span⟩ := t
  cases ha : s.awaiting with simp only [step, ha] at h
  | form =>
    cases kind with simp only [stepForm] at h
    | number => cases h; exact .number ha
    | name => cases h; exact .symbol ha
    | keyword | operator | condOperator => cases h
    | paren =>
      split at h
      · next ho =>
        split at h
        · next hlt =>
          cases h
          rw [Lexeme.isOpening_iff] at ho
          rw [ho]
          exact .opening ha hlt
        · cases h
      · split at h
        · next hc =>
          rw [Lexeme.isClosing_iff] at hc
          split at h
          · cases h
          · next frame frames hs =>
            cases hf : frame.close ⟨⟨.paren, literal⟩, span⟩ with
            | error e => rw [hf] at h; cases h
            | ok f =>
              rw [hf] at h
              cases h
              rw [hc]
              exact .closing ha hs (Frame.close_eq_ok_iff.1 hf)
        · cases h
  | head =>
    cases kind with simp only [stepHead] at h
    | name => cases h; exact .call ha
    | paren | number => cases h
    | operator | condOperator =>
      split at h
      · next op hop =>
        cases h
        obtain rfl := Operator.ofSymbol?_eq_some_iff.1 hop
        exact .binary ha (by simp)
      · cases h
    | keyword =>
      split at h
      · next hl => cases h; subst hl; exact .defvar ha
      · split at h
        · next hl => cases h; subst hl; exact .cond ha
        · cases h
  | declaredName =>
    simp only [stepDeclaredName] at h
    split at h
    · next hk =>
      cases h
      obtain rfl : kind = .name := hk
      exact .declare ha
    · cases h

theorem step_of_moves {limit : Nat} {s s' : ParseState} {t : Token}
    (h : s.Moves limit t.toLexeme s') : s.step limit t = .ok s' := by
  obtain ⟨l, span⟩ := t
  cases h with
  | number ha | symbol ha => simp [step, ha, stepForm]
  | opening ha hlt => simp [step, ha, stepForm, Lexeme.opening, Lexeme.isOpening, hlt]
  | @closing frame frames f ha hs hf =>
    have hclose : frame.close ⟨.closing, span⟩ = .ok f := Frame.close_eq_ok_iff.2 hf
    have hstep : s.step limit ⟨.closing, span⟩ =
        (frame.close ⟨.closing, span⟩).map (add { s with frames }) := by
      simp only [step, ha, stepForm, hs]
      rfl
    exact hstep.trans (by rw [hclose]; rfl)
  | call ha => simp [step, ha, stepHead]
  | binary ha hk => cases hk <;> simp_all [step, stepHead]
  | defvar ha => simp [step, ha, stepHead]
  | cond ha => simp [step, ha, stepHead]
  | declare ha => simp [step, ha, stepDeclaredName]

end ParseState

/-- The frames are open, the innermost first, and the lexemes have led to them: those of the program
so far, and for each frame its parenthesis, its head and its children so far. -/
inductive Pending (limit : Nat) (body : List Form) : List Frame → List Lexeme → Prop
  | base {ls} : (∀ f ∈ body, f.Fits limit 0) → Spells body.reverse ls → Pending limit body [] ls
  | frame {frame frames head ls ms} : Pending limit body frames ls → frames.length < limit →
      frame.Heads head → (∀ f ∈ frame.children, f.Fits limit (frames.length + 1)) →
      Spells frame.children ms →
      Pending limit body (frame :: frames) (ls ++ .opening :: (head ++ ms))

theorem Pending.length_le {limit : Nat} {body : List Form} {frames : List Frame}
    {ls : List Lexeme} (h : Pending limit body frames ls) : frames.length ≤ limit := by
  cases h with
  | base => exact Nat.zero_le _
  | frame _ hlt => exact hlt

namespace ParseState

variable {limit : Nat} {s s' : ParseState}

inductive Consumed (limit : Nat) (s : ParseState) : List Lexeme → Prop
  | form {ls} : s.awaiting = .form → Pending limit s.body s.frames ls → Consumed limit s ls
  | head {ls} : s.awaiting = .head → s.frames.length < limit → Pending limit s.body s.frames ls →
      Consumed limit s (ls ++ [.opening])
  | declaredName {ls} : s.awaiting = .declaredName → s.frames.length < limit →
      Pending limit s.body s.frames ls → Consumed limit s (ls ++ [.opening, ⟨.keyword, "defvar"⟩])

@[simp] theorem add_awaiting (s : ParseState) (f : Form) : (s.add f).awaiting = s.awaiting := by
  rw [add]
  split <;> rfl

@[simp] theorem length_frames_add (s : ParseState) (f : Form) :
    (s.add f).frames.length = s.frames.length := by
  rw [add]
  split <;> simp [*]

theorem pending_add {f : Form} {ls ms : List Lexeme} (h : Pending limit s.body s.frames ls)
    (hf : f.Fits limit s.frames.length) (hm : Spells [f] ms) :
    Pending limit (s.add f).body (s.add f).frames (ls ++ ms) := by
  obtain ⟨awaiting, frames, body⟩ := s
  cases h with
  | base hb hs =>
    refine .base ?_ ?_
    · intro g hg
      cases hg with
      | head => exact hf
      | tail _ hg => exact hb g hg
    · change Spells (f :: body).reverse _
      rw [List.reverse_cons]
      exact hs.append hm
  | frame hp hlt hh hc hs =>
    rw [List.append_assoc, List.cons_append, List.append_assoc]
    refine .frame hp hlt (Frame.heads_push.2 hh) ?_ ?_
    · rw [Frame.children_push]
      intro g hg
      cases List.mem_append.1 hg with
      | inl hg => exact hc g hg
      | inr hg =>
        obtain rfl := List.mem_singleton.1 hg
        exact hf
    · rw [Frame.children_push]
      exact hs.append hm

theorem Consumed.of_form {ls : List Lexeme} (h : s.Consumed limit ls) (ha : s.awaiting = .form) :
    Pending limit s.body s.frames ls := by
  cases h with
  | form _ hp => exact hp
  | head hb | declaredName hb => simp [ha] at hb

theorem Consumed.of_head {ls : List Lexeme} (h : s.Consumed limit ls) (ha : s.awaiting = .head) :
    ∃ ms, ls = ms ++ [.opening] ∧ s.frames.length < limit ∧ Pending limit s.body s.frames ms := by
  cases h with
  | head _ hlt hp => exact ⟨_, rfl, hlt, hp⟩
  | form hb | declaredName hb => simp [ha] at hb

theorem Consumed.of_declaredName {ls : List Lexeme} (h : s.Consumed limit ls)
    (ha : s.awaiting = .declaredName) :
    ∃ ms, ls = ms ++ [.opening, ⟨.keyword, "defvar"⟩] ∧ s.frames.length < limit ∧
      Pending limit s.body s.frames ms := by
  cases h with
  | declaredName _ hlt hp => exact ⟨_, rfl, hlt, hp⟩
  | form hb | head hb => simp [ha] at hb

theorem consumed_add {f : Form} {ls ms : List Lexeme} (h : Pending limit s.body s.frames ls)
    (ha : s.awaiting = .form) (hf : f.Fits limit s.frames.length) (hm : Spells [f] ms) :
    (s.add f).Consumed limit (ls ++ ms) :=
  .form ((add_awaiting s f).trans ha) (pending_add h hf hm)

theorem consumed_enter (frame : Frame) {ls head : List Lexeme}
    (h : Pending limit s.body s.frames ls) (hlt : s.frames.length < limit)
    (hh : frame.Heads head) (hc : frame.children = []) :
    (s.enter frame .form).Consumed limit (ls ++ .opening :: head) := by
  have hs : Spells frame.children [] := by rw [hc]; exact .nil
  have hp := Pending.frame h hlt hh (by simp [hc]) hs
  rw [List.append_nil] at hp
  exact .form rfl hp

theorem Consumed.move {ls : List Lexeme} {l : Lexeme} (h : s.Consumed limit ls)
    (hm : s.Moves limit l s') : s'.Consumed limit (ls ++ [l]) := by
  cases hm with
  | number ha =>
    have hp := h.of_form ha
    exact consumed_add hp ha (Form.fits_of_not_isCompound rfl hp.length_le) (.number .nil)
  | symbol ha =>
    have hp := h.of_form ha
    exact consumed_add hp ha (Form.fits_of_not_isCompound rfl hp.length_le) (.symbol .nil)
  | opening ha hlt => exact .head rfl hlt (h.of_form ha)
  | @closing frame frames f ha hs hf =>
    have hp := h.of_form ha
    rw [hs] at hp
    cases hp with
    | @frame _ _ head ls ms hp hlt hh hc hm =>
      obtain ⟨hcompound, hchildren, hheads, hinit⟩ := Frame.form?_eq_some hf
      have hfits : f.Fits limit frames.length :=
        (Form.fits_iff_of_isCompound hcompound).2 ⟨hlt, hinit, hchildren ▸ hc⟩
      have hspell : Spells [f] (.opening :: (head ++ (ms ++ [.closing]))) :=
        .compound ((hheads head).2 hh) (hchildren ▸ hm) .nil
      have hadd := @consumed_add _ { s with frames } f ls _ hp ha hfits hspell
      simpa using hadd
  | call ha =>
    obtain ⟨ms, rfl, hlt, hp⟩ := h.of_head ha
    simpa using consumed_enter (.call _ []) hp hlt rfl rfl
  | binary ha hk =>
    obtain ⟨ms, rfl, hlt, hp⟩ := h.of_head ha
    cases hk with
    | inl hk => simpa [hk] using consumed_enter (.binary _ []) hp hlt (.inl rfl) rfl
    | inr hk => simpa [hk] using consumed_enter (.binary _ []) hp hlt (.inr rfl) rfl
  | defvar ha =>
    obtain ⟨ms, rfl, hlt, hp⟩ := h.of_head ha
    rw [List.append_assoc]
    exact .declaredName rfl hlt hp
  | cond ha =>
    obtain ⟨ms, rfl, hlt, hp⟩ := h.of_head ha
    simpa using consumed_enter .test hp hlt rfl rfl
  | declare ha =>
    obtain ⟨ms, rfl, hlt, hp⟩ := h.of_declaredName ha
    simpa using consumed_enter (.declare _ []) hp hlt rfl rfl

theorem Consumed.run {ls : List Lexeme} {ts : List Token} (h : s.Consumed limit ls)
    (hr : s.run limit ts = .ok s') : s'.Consumed limit (ls ++ ts.map Token.toLexeme) := by
  induction ts generalizing s ls with
  | nil =>
    cases hr
    simpa using h
  | cons t ts ih =>
    rw [ParseState.run] at hr
    cases hs : s.step limit t with
    | error e => rw [hs] at hr; cases hr
    | ok r =>
      rw [hs] at hr
      simpa using ih (h.move (moves_of_step hs)) hr

theorem run_cons_of_moves {t : Token} {l : Lexeme} (ht : t.toLexeme = l)
    (h : s.Moves limit l s') (ts : List Token) : s.run limit (t :: ts) = s'.run limit ts := by
  rw [ParseState.run, step_of_moves (ht ▸ h)]

theorem foldl_add_enter (s : ParseState) (frame : Frame) (fs : List Form) :
    fs.foldl add (s.enter frame .form) = s.enter (fs.foldl Frame.push frame) .form := by
  induction fs generalizing frame with
  | nil => rfl
  | cons f fs ih => exact ih (frame.push f)

theorem run_head {f : Form} {head : List Lexeme} (h : f.Heads head) (ha : s.awaiting = .head)
    {hs : List Token} (hhs : hs.map Token.toLexeme = head) (ts : List Token) :
    s.run limit (hs ++ ts) = (s.enter f.frame .form).run limit ts := by
  cases f with
  | number | symbol => cases h
  | call callee args =>
    obtain ⟨t, rfl, ht⟩ := List.map_eq_singleton_iff.1 (hhs.trans h)
    exact run_cons_of_moves ht (.call ha) ts
  | binary op operands =>
    cases h with
    | inl h =>
      obtain ⟨t, rfl, ht⟩ := List.map_eq_singleton_iff.1 (hhs.trans h)
      exact run_cons_of_moves ht (.binary ha (.inl rfl)) ts
    | inr h =>
      obtain ⟨t, rfl, ht⟩ := List.map_eq_singleton_iff.1 (hhs.trans h)
      exact run_cons_of_moves ht (.binary ha (.inr rfl)) ts
  | declare name inits =>
    obtain ⟨t, us, rfl, ht, hus⟩ := List.map_eq_cons_iff.1 (hhs.trans h)
    obtain ⟨u, rfl, hu⟩ := List.map_eq_singleton_iff.1 hus
    rw [List.cons_append, run_cons_of_moves ht (.defvar ha)]
    exact run_cons_of_moves hu (.declare rfl) ts
  | cond test conseq alts =>
    obtain ⟨t, rfl, ht⟩ := List.map_eq_singleton_iff.1 (hhs.trans h)
    exact run_cons_of_moves ht (.cond ha) ts

theorem run_closing {f : Form} {frame : Frame} (hf : frame.form? = some f)
    (ha : s.awaiting = .form) {t : Token} (ht : t.toLexeme = .closing) (ts : List Token) :
    (s.enter frame .form).run limit (t :: ts) = (s.add f).run limit ts := by
  have hs : { s.enter frame .form with frames := s.frames } = s := by rw [enter, ← ha]
  have hm : (s.enter frame .form).Moves limit .closing
      (add { s.enter frame .form with frames := s.frames } f) := .closing rfl rfl hf
  rw [hs] at hm
  exact run_cons_of_moves ht hm ts

theorem run_of_spells {fs : List Form} {ls : List Lexeme} (h : Spells fs ls) {ts : List Token}
    (hts : ts.map Token.toLexeme = ls) (rest : List Token) (ha : s.awaiting = .form)
    (hf : ∀ f ∈ fs, f.Fits limit s.frames.length) :
    s.run limit (ts ++ rest) = (fs.foldl add s).run limit rest := by
  induction h generalizing s ts rest with
  | nil =>
    rw [List.map_eq_nil_iff.1 hts]
    rfl
  | number _ ih =>
    obtain ⟨t, us, rfl, ht, hus⟩ := List.map_eq_cons_iff.1 hts
    rw [List.forall_mem_cons] at hf
    rw [List.cons_append, run_cons_of_moves ht (.number ha)]
    exact ih hus rest ((add_awaiting ..).trans ha) (by simpa using hf.2)
  | symbol _ ih =>
    obtain ⟨t, us, rfl, ht, hus⟩ := List.map_eq_cons_iff.1 hts
    rw [List.forall_mem_cons] at hf
    rw [List.cons_append, run_cons_of_moves ht (.symbol ha)]
    exact ih hus rest ((add_awaiting ..).trans ha) (by simpa using hf.2)
  | @compound f _ _ _ _ hh _ _ ihc ih =>
    obtain ⟨o, ts, rfl, ho, hts⟩ := List.map_eq_cons_iff.1 hts
    obtain ⟨hs, ts, rfl, hhs, hts⟩ := List.map_eq_append_iff.1 hts
    obtain ⟨cs, ts, rfl, hcs, hts⟩ := List.map_eq_append_iff.1 hts
    obtain ⟨c, us, rfl, hc, hus⟩ := List.map_eq_cons_iff.1 hts
    rw [List.forall_mem_cons] at hf
    obtain ⟨hlt, hinit, hchildren⟩ := (Form.fits_iff_of_isCompound hh.isCompound).1 hf.1
    calc s.run limit (o :: (hs ++ (cs ++ c :: us)) ++ rest)
      _ = run limit { s with awaiting := .head } (hs ++ (cs ++ c :: (us ++ rest))) := by
        simpa using run_cons_of_moves ho (.opening ha hlt) (hs ++ (cs ++ c :: (us ++ rest)))
      _ = (s.enter f.frame .form).run limit (cs ++ c :: (us ++ rest)) := run_head hh rfl hhs _
      _ = (f.children.foldl add (s.enter f.frame .form)).run limit (c :: (us ++ rest)) :=
        ihc hcs _ rfl hchildren
      _ = (s.add f).run limit (us ++ rest) := by
        rw [foldl_add_enter]
        exact run_closing (Form.form?_frame hh.isCompound hinit) ha hc _
      _ = _ := ih hus rest ((add_awaiting ..).trans ha) (by simpa using hf.2)

theorem foldl_add_body (fs body : List Form) :
    fs.foldl add { body := body } = { body := fs.reverse ++ body } := by
  induction fs generalizing body with
  | nil => rfl
  | cons f fs ih =>
    rw [List.reverse_cons, List.append_assoc]
    exact ih (f :: body)

theorem finish_eq_ok_iff {p : List Form} :
    s.finish = .ok p ↔ s = { body := p.reverse } := by
  obtain ⟨awaiting, frames, body⟩ := s
  cases awaiting with
  | head | declaredName => simp [finish]
  | form =>
    cases frames with
    | cons frame frames => simp [finish]
    | nil => simp [finish, List.reverse_eq_iff]

end ParseState

theorem consumed_of_run {limit : Nat} {tokens : List Token} {s : ParseState}
    (h : ParseState.run limit {} tokens = .ok s) :
    s.Consumed limit (tokens.map Token.toLexeme) := by
  have hinit : ParseState.Consumed limit {} [] := .form rfl (.base (by simp) .nil)
  simpa using hinit.run h

structure Grammatical (limit : Nat) (program : List Form) (tokens : List Token) : Prop where
  spelled : Spells program (tokens.map Token.toLexeme)
  initialized : ∀ f ∈ program, f.Initialized
  depth_le : ∀ f ∈ program, f.depth ≤ limit

theorem Grammatical.mono {limit k : Nat} {program : List Form} {tokens : List Token}
    (h : Grammatical limit program tokens) (hk : limit ≤ k) : Grammatical k program tokens where
  spelled := h.spelled
  initialized := h.initialized
  depth_le f hf := (h.depth_le f hf).trans hk

theorem run_of_parse {limit : Nat} {program : List Form} {tokens : List Token}
    (h : parse tokens limit = .ok program) :
    ParseState.run limit {} tokens = .ok { body := program.reverse } := by
  rw [parse] at h
  split at h
  · next s hs => rw [hs, ParseState.finish_eq_ok_iff.1 h]
  · cases h

theorem grammatical_of_parse {limit : Nat} {program : List Form} {tokens : List Token}
    (h : parse tokens limit = .ok program) : Grammatical limit program tokens := by
  have hc := consumed_of_run (run_of_parse h)
  cases hc.of_form rfl with
  | base hf hl =>
    rw [List.reverse_reverse] at hl
    have hfits : ∀ f ∈ program, f.Fits limit 0 := by simpa using hf
    exact ⟨hl, fun f hf => (hfits f hf).initialized, fun f hf => by
      simpa using (hfits f hf).depth_le⟩

theorem parse_of_grammatical {limit : Nat} {program : List Form} {tokens : List Token}
    (h : Grammatical limit program tokens) : parse tokens limit = .ok program := by
  have hfits : ∀ f ∈ program, f.Fits limit 0 := fun f hf =>
    ⟨h.initialized f hf, by simpa using h.depth_le f hf⟩
  have hrun : ParseState.run limit {} tokens = .ok { body := program.reverse } := by
    have hrun := ParseState.run_of_spells (s := {}) h.spelled rfl [] rfl hfits
    simpa [ParseState.foldl_add_body program []] using hrun
  rw [parse, hrun]
  exact ParseState.finish_eq_ok_iff.2 rfl

theorem Grammatical.unique {limit k : Nat} {p q : List Form} {tokens : List Token}
    (hp : Grammatical limit p tokens) (hq : Grammatical k q tokens) : p = q := by
  have hp := parse_of_grammatical (hp.mono (le_max_left limit k))
  have hq := parse_of_grammatical (hq.mono (le_max_right limit k))
  exact Except.ok.inj (hp.symm.trans hq)

theorem parse_eq_ok_iff_grammatical (limit : Nat) (program : List Form) (tokens : List Token) :
    (parse tokens limit = .ok program ↔ Grammatical limit program tokens) ∧
      ∀ k other, Grammatical limit program tokens → Grammatical k other tokens →
        program = other :=
  ⟨⟨grammatical_of_parse, parse_of_grammatical⟩, fun _ _ hp hq => hp.unique hq⟩

end Lisplet
