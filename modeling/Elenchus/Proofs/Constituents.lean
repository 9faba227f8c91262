import Elenchus.Proofs.Tokens

/-! The parts of a sentence, token by token: terms, and where formulas begin and stand complete. -/

namespace Elenchus

mutual
/-- A term as tokens. -/
def Term.tokens : Term → List String
  | .var x => [x]
  | .app f [] => [f]
  | .app f (t :: ts) => f :: "(" :: (t.tokens ++ Term.tokensRest ts)

def Term.tokensRest : List Term → List String
  | [] => [")"]
  | t :: ts => "," :: (t.tokens ++ Term.tokensRest ts)
end

namespace Notation

variable {s s' s₁ s₂ : State} {t : Token} {w : String} {ws ws' : List String}
  {cs rest : List Char} {f g : Formula} {st st' : List Frame} {k : Kind} {n : Nat}

/-! ### Tokens, one after the other -/

theorem Walks.single {fine : State → Token → Prop}
    (ht : tokenWhere s.expecting.allows (t.text ++ rest) = some t) (hs : s.step t = some s₁)
    (hb : fine s t) : Walks fine s (t.text ++ rest) s₁ rest := by
  obtain ⟨c, cs, hcs⟩ := List.exists_cons_of_ne_nil (tokenWhere_front ht).1
  rw [hcs, List.cons_append] at ht ⊢
  refine .token (isSpace_of_tokenWhere ht) ht hs hb ?_
  rw [hcs, List.length_cons, Nat.add_sub_cancel, List.drop_left]
  exact .done s₁ rest

/-- The reader gets from one state to another over tokens, whatever ends each of them. -/
inductive Takes : State → List String → State → Prop
  | done (s : State) : Takes s [] s
  | token {s s₁ s' : State} {w : String} {k : Kind} {ws : List String}
    (ht : ∀ rest, EndsToken w.toList rest →
      tokenWhere s.expecting.allows (w.toList ++ rest) = some ⟨k, w.toList⟩)
    (hs : s.step ⟨k, w.toList⟩ = some s₁) (hb : s.admits ⟨k, w.toList⟩ = true)
    (h : Takes s₁ ws s') : Takes s (w :: ws) s'

theorem Takes.trans (h : Takes s ws s₁) (h' : Takes s₁ ws' s₂) : Takes s (ws ++ ws') s₂ := by
  induction h with
  | done => exact h'
  | token ht hs hb _ ih => exact .token ht hs hb (ih h')

theorem Takes.spelled (h : (w.toList, k) ∈ signs ++ keywords) (ha : s.expecting.allows k = true)
    (hs : s.step ⟨k, w.toList⟩ = some s₁) (hb : s.admits ⟨k, w.toList⟩ = true) :
    Takes s [w] s₁ :=
  .token (fun _ hr => tokenWhere_spelling h ha hr) hs hb (.done s₁)

theorem Takes.name (hw : isWord w.toList = true) (ha : s.expecting.allows .name = true)
    (hk : ∀ e ∈ keywords, s.expecting.allows e.2 = true → e.1 ≠ w.toList)
    (hs : s.step ⟨.name, w.toList⟩ = some s₁) (hb : s.admits ⟨.name, w.toList⟩ = true) :
    Takes s [w] s₁ :=
  .token (fun _ hr => tokenWhere_name hw (hr hw) ha hk) hs hb (.done s₁)

/-- Where nothing but a name can stand, every word is one. -/
theorem Takes.onlyName (hw : isWord w.toList = true) (ha : ∀ k, s.expecting.allows k = (k == .name))
    (hs : s.step ⟨.name, w.toList⟩ = some s₁) (hb : s.admits ⟨.name, w.toList⟩ = true) :
    Takes s [w] s₁ := by
  have hkeys : ∀ e ∈ keywords, e.2 ≠ Kind.name := by decide
  refine .name hw (ha .name) (fun e he h => absurd ?_ (hkeys e he)) hs hb
  simpa [ha] using h

theorem Takes.reads_token (h : Takes s [w] s₁) (hr : EndsToken w.toList rest) :
    Reads s (w.toList ++ rest) s₁ rest := by
  cases h with
  | @token _ _ _ _ k _ ht hs hb h =>
    cases h
    exact .single (t := ⟨k, w.toList⟩) (ht rest hr) hs hb

/-- In a blank text there is nothing to read. -/
theorem Walks.eq_of_blank {fine : State → Token → Prop} (h : Walks fine s cs s' rest)
    (hb : cs.all Text.isBlank = true) : s' = s := by
  induction h with
  | done => rfl
  | space _ _ ih =>
    rw [List.all_cons, Bool.and_eq_true] at hb
    exact ih hb.2
  | token _ ht _ _ _ _ =>
    rw [List.all_cons, Bool.and_eq_true, isBlank_of_tokenWhere ht] at hb
    cases hb.1

theorem parse_of_reads {text : String} (hr : Reads (.formula []) text.toList s [])
    (hf : s.finish = some f) : parse text = .ok f := by
  refine parse_eq_ok_iff.2 ⟨?_, s, hr, hf⟩
  by_contra hb
  -- in its first state the reader cannot finish
  rw [hr.eq_of_blank (Bool.of_not_eq_false hb)] at hf
  cases hf

/-! ### Terms -/

section
variable {u : Term} {us : List Term} {calls : List Call} {atom : Call}

/-- The states after a term that is an argument. -/
def EndsTerm (s : State) (u : Term) (calls : List Call) (atom : Call) (st : List Frame) : Prop :=
  (∃ n, u = bareTerm n ∧ s = .afterTermName n calls atom st) ∨
    s = .afterTerm (State.pushArg u calls atom).1 (State.pushArg u calls atom).2 st

def pushArgs (us : List Term) (calls : List Call) (atom : Call) : List Call × Call :=
  us.foldl (fun p u => State.pushArg u p.1 p.2) (calls, atom)

theorem pushArgs_atom (us : List Term) (atom : Call) :
    pushArgs us [] atom = ([], ⟨atom.name, atom.args ++ us⟩) := by
  induction us generalizing atom with
  | nil => simp [pushArgs]
  | cons u us ih =>
    have := ih (atom.push u)
    simpa [pushArgs, State.pushArg, Call.push] using this

theorem pushArgs_call (us : List Term) (c : Call) (calls : List Call) (atom : Call) :
    pushArgs us (c :: calls) atom = (⟨c.name, c.args ++ us⟩ :: calls, atom) := by
  induction us generalizing c with
  | nil => simp [pushArgs]
  | cons u us ih =>
    have := ih (c.push u)
    simpa [pushArgs, State.pushArg, Call.push] using this

theorem EndsTerm.comma (h : EndsTerm s u calls atom st) :
    Takes s [","] (.term (State.pushArg u calls atom).1 (State.pushArg u calls atom).2 st) := by
  rcases h with ⟨n, rfl, rfl⟩ | rfl
  · exact .spelled (k := .comma) (by decide) rfl rfl rfl
  · exact .spelled (k := .comma) (by decide) rfl rfl rfl

theorem EndsTerm.rpar (h : EndsTerm s u calls atom st) :
    Takes s [")"]
      (State.closeCall st (State.pushArg u calls atom).1 (State.pushArg u calls atom).2) := by
  rcases h with ⟨n, rfl, rfl⟩ | rfl
  · exact .spelled (k := .rpar) (by decide) rfl rfl rfl
  · exact .spelled (k := .rpar) (by decide) rfl rfl rfl

/-- Taking a term token by token. -/
def TakesTerm (u : Term) : Prop :=
  ∀ calls atom st, ∃ s, Takes (.term calls atom st) u.tokens s ∧ EndsTerm s u calls atom st

theorem takes_args (hu : TakesTerm u) (hus : ∀ u ∈ us, TakesTerm u) (calls : List Call)
    (atom : Call) (st : List Frame) :
    Takes (.term calls atom st) (u.tokens ++ Term.tokensRest us)
      (State.closeCall st (pushArgs (u :: us) calls atom).1
        (pushArgs (u :: us) calls atom).2) := by
  induction us generalizing u calls atom with
  | nil =>
    obtain ⟨s, hs, hends⟩ := hu calls atom st
    rw [Term.tokensRest]
    exact hs.trans hends.rpar
  | cons v vs ih =>
    obtain ⟨hv, hvs⟩ := List.forall_mem_cons.1 hus
    obtain ⟨s, hs, hends⟩ := hu calls atom st
    rw [Term.tokensRest]
    exact hs.trans (hends.comma.trans (ih hv hvs _ _))

theorem takes_word (hw : isWord w.toList = true) :
    Takes (.term calls atom st) [w] (.afterTermName w calls atom st) :=
  .onlyName hw (fun _ => rfl) (by simp [State.step]) rfl

theorem takes_term (h : u.isReadable = true) : TakesTerm u := by
  induction u with
  | var x =>
    simp only [Term.isReadable, isVariable, Bool.and_eq_true] at h
    intro calls atom st
    exact ⟨_, takes_word h.1, Or.inl ⟨x, by simp [bareTerm, h.2], rfl⟩⟩
  | app f us ih =>
    intro calls atom st
    cases us with
    | nil =>
      simp only [Term.isReadable, isConstant, Bool.and_eq_true, Bool.not_eq_true'] at h
      exact ⟨_, takes_word h.1, Or.inl ⟨f, by simp [bareTerm, h.2], rfl⟩⟩
    | cons u us =>
      simp only [Term.isReadable, Bool.and_eq_true, Term.areReadable_iff] at h
      obtain ⟨⟨hf, hu⟩, hus⟩ := h
      have hargs := takes_args (ih u (List.mem_cons_self ..) hu)
        (fun v hv => ih v (List.mem_cons_of_mem _ hv) (hus v hv)) (⟨f, []⟩ :: calls) atom st
      rw [pushArgs_call] at hargs
      have hlpar : Takes (.afterTermName f calls atom st) ["("]
          (.term (⟨f, []⟩ :: calls) atom st) := .spelled (k := .lpar) (by decide) rfl rfl rfl
      exact ⟨_, (takes_word hf).trans (hlpar.trans hargs), Or.inr rfl⟩

end

/-! ### Complete formulas -/

namespace State

/-- The formula that stands complete, and the frames around it. -/
def standing? : State → Option (Formula × List Frame)
  | .afterName p st => some (.atomic ⟨p, []⟩, st)
  | .afterFormula f st => some (f, st)
  | _ => none

theorem expecting_of_standing (h : s.standing? = some (g, st))
    (hk : isConnective k = true ∨ k = .rpar) : s.expecting.allows k = true := by
  cases s with
  | afterName p st =>
    rcases hk with hk | rfl
    · simp [expecting, Expecting.allows, hk]
    · rfl
  | afterFormula f st =>
    rcases hk with hk | rfl
    · simp [expecting, Expecting.allows, hk]
    · rfl
  | _ => cases h

theorem step_of_standing (h : s.standing? = some (g, st)) (hk : t.kind ≠ .lpar) :
    s.step t = goOn g st t := by
  cases s with
  | afterName p st =>
    cases h
    rw [step]
    split
    · next hl => exact absurd hl hk
    · rfl
  | afterFormula f st =>
    cases h
    rfl
  | _ => cases h

theorem step_rpar {w : List Char} (h : s.standing? = some (g, st))
    (hs : settle 1 g st = (f, .group :: st')) :
    s.step ⟨.rpar, w⟩ = some (.afterFormula f st') := by
  rw [step_of_standing h (by rintro ⟨⟩)]
  simp only [goOn, hs]

theorem admits_of_standing (h : s.standing? = some (g, st)) : s.admits t = true := by
  cases s with
  | binder => cases h
  | _ => rfl

theorem finish_of_standing (h : s.standing? = some (g, st)) (hs : settle 1 g st = (f, [])) :
    s.finish = some f := by
  cases s with
  | afterName p st =>
    cases h
    simp only [finish, finish.closeAll, hs]
  | afterFormula f st =>
    cases h
    simp only [finish, finish.closeAll, hs]
  | _ => cases h

end State

/-- A formula stands complete in a place where connectives bind tighter than `n`: closing frames
that bind at least as tightly as some level up to `n + 1` closes them around this formula. -/
def Stands (s : State) (n : Nat) (f : Formula) (st : List Frame) : Prop :=
  ∃ g st', s.standing? = some (g, st') ∧ ∀ k ≤ 5, k ≤ n + 1 → settle k g st' = settle k f st

/-- The states in which a formula begins. -/
def Begins (s : State) (st : List Frame) : Prop :=
  s = .formula st ∨ ∃ q xs st', s = .afterBinder q xs st' ∧ st = State.quantifier q xs :: st'

section
variable (h : Begins s st)
include h

theorem Begins.step (hk : startsFormula t.kind = true) : s.step t = State.begin st t := by
  rcases h with rfl | ⟨q, xs, st', rfl, rfl⟩
  · rfl
  · rw [State.step]
    split
    · next he => simp [he, startsFormula] at hk
    · next he => simp [he, startsFormula] at hk
    · rfl

theorem Begins.admits : s.admits t = true := by
  rcases h with rfl | ⟨q, xs, st', rfl, rfl⟩ <;> rfl

theorem Begins.allows (hk : startsFormula k = true) : s.expecting.allows k = true := by
  rcases h with rfl | ⟨q, xs, st', rfl, rfl⟩
  · exact hk
  · simp [State.expecting, Expecting.allows, hk]

theorem Begins.keyword {e : List Char × Kind} (he : e ∈ keywords)
    (ha : s.expecting.allows e.2 = true) :
    e.1 = "not".toList ∨ e.1 = "forall".toList ∨ e.1 = "exists".toList := by
  have hkeys : ∀ e ∈ keywords, Expecting.afterBinder.allows e.2 = true →
      e.1 = "not".toList ∨ e.1 = "forall".toList ∨ e.1 = "exists".toList := by
    decide
  refine hkeys e he ?_
  rcases h with rfl | ⟨q, xs, st', rfl, rfl⟩
  · simp only [Expecting.allows, Bool.or_eq_true]
    exact Or.inl (Or.inl ha)
  · exact ha

/-- Where a formula begins, a predicate is no keyword. -/
theorem Begins.keyword_ne {p : String} (hp : isPredicate p = true) {e : List Char × Kind}
    (he : e ∈ keywords) (ha : s.expecting.allows e.2 = true) : e.1 ≠ p.toList := by
  simp only [isPredicate, Bool.and_eq_true, bne_iff_ne] at hp
  obtain ⟨⟨⟨-, hnot⟩, hall⟩, hex⟩ := hp
  intro heq
  rcases h.keyword he ha with hn | hn | hn
  · exact hnot (String.toList_inj.1 (heq.symm.trans hn))
  · exact hall (String.toList_inj.1 (heq.symm.trans hn))
  · exact hex (String.toList_inj.1 (heq.symm.trans hn))

theorem Begins.step_name (p : String) : s.step ⟨.name, p.toList⟩ = some (.afterName p st) := by
  rw [h.step rfl, State.begin]
  simp

theorem Begins.predicate {p : String} (hp : isPredicate p = true) :
    Takes s [p] (.afterName p st) := by
  have hw : isWord p.toList = true := by
    simp only [isPredicate, Bool.and_eq_true] at hp
    exact hp.1.1.1
  exact .name hw (h.allows rfl) (fun e he ha => h.keyword_ne hp he ha) (h.step_name p) h.admits

theorem Begins.spelled (hw : (w.toList, k) ∈ signs ++ keywords) (hk : startsFormula k = true)
    (hs : State.begin st ⟨k, w.toList⟩ = some s₁) : Takes s [w] s₁ :=
  .spelled hw (h.allows hk) ((h.step hk).trans hs) h.admits

end

/-- A negation or quantifier closes around the next unary formula. -/
theorem Stands.unary {fr : Frame} (h : Stands s 5 f (fr :: st)) (hfr : fr.level = 5) (n : Nat) :
    Stands s n (fr.close f) st := by
  obtain ⟨g, st', hst, hset⟩ := h
  refine ⟨g, st', hst, fun k hk _ => ?_⟩
  rw [hset k hk (by omega), settle, hfr, if_pos hk]

theorem Stands.finish (h : Stands s 0 f []) : s.finish = some f := by
  obtain ⟨g, st, hst, hset⟩ := h
  exact State.finish_of_standing hst (hset 1 (by omega) (by omega))

/-! ### Connectives -/

inductive Connective where
  | and
  | or
  | implies
  | iff

namespace Connective

def join : Connective → Formula → Formula → Formula
  | .and => .and
  | .or => .or
  | .implies => .implies
  | .iff => .iff

/-- What waits for the right side. -/
def frame : Connective → Formula → Frame
  | .and => .and
  | .or => .or
  | .implies => .implies
  | .iff => .iff

/-- The kinds of token that stand for a connective. -/
def kinds : Connective → List Kind
  | .and => [.andSign, .andWord]
  | .or => [.orSign, .orWord]
  | .implies => [.impliesSign]
  | .iff => [.iffSign, .iffWord]

def level : Connective → Nat
  | .and => 4
  | .or => 3
  | .implies => 2
  | .iff => 1

/-- The level down to which the sign closes frames on its left. -/
def cut : Connective → Nat
  | .and => 4
  | .or => 3
  | .implies => 3
  | .iff => 1

variable (o : Connective)

theorem isConnective_of_mem {k : Kind} (hk : k ∈ o.kinds) : isConnective k = true := by
  cases o <;> revert k <;> decide

theorem exists_kinds (hk : isConnective k = true) : ∃ o : Connective, k ∈ o.kinds := by
  cases k with
  | andSign | andWord => exact ⟨.and, by decide⟩
  | orSign | orWord => exact ⟨.or, by decide⟩
  | impliesSign => exact ⟨.implies, by decide⟩
  | iffSign | iffWord => exact ⟨.iff, by decide⟩
  | _ => cases hk

theorem goOn_of_mem {t : Token} (hk : t.kind ∈ o.kinds) (f : Formula) (st : List Frame) :
    State.goOn f st t =
      some (.formula (o.frame (settle o.cut f st).1 :: (settle o.cut f st).2)) := by
  obtain ⟨k, w⟩ := t
  have hk : k ∈ o.kinds := hk
  cases o with
  | and | or | iff =>
    simp only [kinds, List.mem_cons, List.not_mem_nil, or_false] at hk
    rcases hk with rfl | rfl <;> rfl
  | implies =>
    obtain rfl := List.mem_singleton.1 hk
    rfl

theorem level_frame (f : Formula) : (o.frame f).level = o.level := by
  cases o <;> rfl

theorem close_frame (f g : Formula) : (o.frame f).close g = o.join f g := by
  cases o <;> rfl

end Connective

end Notation

end Elenchus
