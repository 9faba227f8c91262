import Elenchus.Notation.Reader
import Elenchus.Proofs.Evaluation
import Mathlib.Data.List.TakeWhile

/-! Reading as a walk through states, on which every formula and term at hand is readable. -/

namespace Elenchus

namespace Notation

/-! ### Names -/

/-- A letter or underscore, and then letters, digits, underscores and apostrophes. -/
def isWord : List Char → Bool
  | [] => false
  | c :: cs => isNameStart c && cs.all isNameChar

def isVariable (x : String) : Bool := isWord x.toList && isVariableName x.toList

def isConstant (c : String) : Bool := isWord c.toList && !isVariableName c.toList

/-- Words that mean something where a formula begins are no predicates. -/
def isPredicate (p : String) : Bool :=
  isWord p.toList && p != "not" && p != "forall" && p != "exists"

end Notation

open Notation

mutual
/-- Terms with names that can be told apart: variables from constants by their first letter. -/
def Term.isReadable : Term → Bool
  | .var x => isVariable x
  | .app c [] => isConstant c
  | .app f (t :: ts) => isWord f.toList && t.isReadable && Term.areReadable ts

def Term.areReadable : List Term → Bool
  | [] => true
  | t :: ts => t.isReadable && Term.areReadable ts
end

def Formula.isReadable : Formula → Bool
  | .atomic a => isPredicate a.pred && Term.areReadable a.args
  | .not f => f.isReadable
  | .and f g | .or f g | .implies f g | .iff f g => f.isReadable && g.isReadable
  | .all (.var x) f | .ex (.var x) f => isVariable x && f.isReadable
  | .all (.other _) _ | .ex (.other _) _ | .stray _ => false

theorem Term.areReadable_iff {ts : List Term} :
    Term.areReadable ts = true ↔ ∀ t ∈ ts, t.isReadable = true := by
  induction ts with
  | nil => simp [areReadable]
  | cons t ts ih => simp [areReadable, ih]

theorem Term.isReadable_app {f : String} {ts : List Term} (hf : isWord f.toList = true)
    (hts : ∀ t ∈ ts, t.isReadable = true) (hne : ts ≠ []) : (Term.app f ts).isReadable = true := by
  cases ts with
  | nil => exact absurd rfl hne
  | cons t ts =>
    rw [List.forall_mem_cons, ← areReadable_iff] at hts
    simp [isReadable, hf, hts]

namespace Notation

variable {s s' s₁ : State} {t : Token} {cs cs' : List Char} {f g : Formula} {fr : Frame}
  {st : List Frame} {allowed : Kind → Bool}

theorem isNameChar_of_isNameStart {c : Char} (h : isNameStart c = true) : isNameChar c = true := by
  simp only [isNameStart, isNameChar, Char.isAlphanum, Bool.or_eq_true] at h ⊢
  tauto

theorem isReadable_bareTerm {n : String} (h : isWord n.toList = true) :
    (bareTerm n).isReadable = true := by
  by_cases hv : isVariableName n.toList = true
  · simp [bareTerm, hv, Term.isReadable, isVariable, h]
  · simp [bareTerm, hv, Term.isReadable, isConstant, h]

/-! ### Tokens -/

theorem isWord_takeWhile {c : Char} (h : isNameStart c = true) :
    isWord ((c :: cs).takeWhile isNameChar) = true := by
  rw [List.takeWhile_cons_of_pos (isNameChar_of_isNameStart h), isWord, h, Bool.true_and,
    List.all_eq_true]
  intro d hd
  exact List.mem_takeWhile_imp hd

theorem frontEntry_eq_some {table : List (List Char × Kind)}
    (h : frontEntry table allowed cs = some t) :
    (t.text, t.kind) ∈ table ∧ allowed t.kind = true ∧ t.text <+: cs := by
  obtain ⟨e, he, rfl⟩ := Option.map_eq_some_iff.1 h
  have hfound := List.find?_some he
  simp only [Bool.and_eq_true, List.isPrefixOf_iff_prefix] at hfound
  exact ⟨List.mem_of_find?_eq_some he, hfound⟩

/-- A name is a word, and no keyword that is allowed in its place. -/
theorem name_of_tokenWhere (h : tokenWhere allowed cs = some t) (hk : t.kind = .name) :
    isWord t.text = true ∧ ∀ e ∈ keywords, allowed e.2 = true → e.1 ≠ t.text := by
  have htables : ∀ e ∈ keywords ++ signs, e.2 ≠ Kind.name := by decide
  have hfront : ∀ table ⊆ keywords ++ signs, frontEntry table allowed cs ≠ some t := by
    intro table hsub hf
    exact htables _ (hsub (frontEntry_eq_some hf).1) hk
  cases cs with
  | nil => cases h
  | cons c cs =>
    rw [tokenWhere] at h
    split at h
    · next hc =>
      split at h
      · cases h
        simp only [wordToken] at hk ⊢
        split at hk
        · next e he =>
          exact absurd hk (htables e (List.mem_append_left _ (List.mem_of_find?_eq_some he)))
        · next he =>
          refine ⟨isWord_takeWhile hc, fun e hm ha heq => ?_⟩
          exact List.find?_eq_none.1 he e hm (by simp [ha, heq])
      · exact absurd h (hfront keywords (List.subset_append_left ..))
    · exact absurd h (hfront signs (List.subset_append_right ..))

/-! ### The walk through the states -/

/-- The reader gets from a state with some text ahead to another with the rest of the text, over
tokens that are fine where they stand. -/
inductive Walks (fine : State → Token → Prop) : State → List Char → State → List Char → Prop
  | done (s : State) (cs : List Char) : Walks fine s cs s cs
  | space {s s' : State} {c : Char} {cs cs' : List Char} (hc : isSpace c = true)
    (h : Walks fine s cs s' cs') : Walks fine s (c :: cs) s' cs'
  | token {s s₁ s' : State} {c : Char} {cs cs' : List Char} {t : Token} (hc : isSpace c = false)
    (ht : tokenWhere s.expecting.allows (c :: cs) = some t) (hs : s.step t = some s₁)
    (hb : fine s t) (h : Walks fine s₁ (cs.drop (t.text.length - 1)) s' cs') :
    Walks fine s (c :: cs) s' cs'

theorem Walks.trans {fine : State → Token → Prop} {s₂ : State} {cs₂ : List Char}
    (h : Walks fine s cs s' cs') (h' : Walks fine s' cs' s₂ cs₂) : Walks fine s cs s₂ cs₂ := by
  induction h with
  | done => exact h'
  | space hc _ ih => exact .space hc (ih h')
  | token hc ht hs hb _ ih => exact .token hc ht hs hb (ih h')

/-- Quantified names have to be variables. -/
def State.admits (s : State) (t : Token) : Bool :=
  match s with
  | .binder _ _ _ => isVariableName t.text
  | _ => true

abbrev Reads : State → List Char → State → List Char → Prop := Walks fun s t => s.admits t = true

theorem noteBinder_none {pos : Nat} :
    noteBinder s t pos none = none ↔ s.admits t = true := by
  cases s <;> simp [noteBinder, State.admits]

/-- Nothing comes of a text once a quantified name is no variable. -/
theorem readFrom_capital (s : State) (pos last : Nat) (p : String × Nat) (cs : List Char) :
    readFrom s pos last (some p) cs ≠ .ok f := by
  generalize hp : some p = capital
  intro h
  fun_induction readFrom s pos last capital cs with
  | case1 | case2 | case6 | case7 | case8 => cases h
  | case3 => cases hp
  | case4 _ _ _ _ _ _ _ ih => exact ih hp h
  | case5 s pos _ _ _ _ _ t _ _ _ ih => exact ih (hp ▸ rfl) h

theorem Reads.of_readFrom {pos last : Nat} (h : readFrom s pos last none cs = .ok f) :
    ∃ s', Reads s cs s' [] ∧ s'.finish = some f := by
  generalize hp : none = capital at h
  fun_induction readFrom s pos last capital cs with
  | case1 | case2 | case6 | case7 | case8 => cases h
  | case3 s _ _ g hg =>
    cases h
    exact ⟨s, .done s [], hg⟩
  | case4 _ _ _ _ _ _ hc ih =>
    obtain ⟨s', hr, hf⟩ := ih hp h
    exact ⟨s', .space hc hr, hf⟩
  | case5 s pos _ _ _ _ hc t ht s₁ hs ih =>
    subst hp
    cases hb : noteBinder s t pos none with
    | some p =>
      rw [hb] at h
      exact absurd h (readFrom_capital s₁ _ _ p _)
    | none =>
      obtain ⟨s', hr, hf⟩ := ih hb.symm h
      exact ⟨s', .token (by simpa using hc) ht hs (noteBinder_none.1 hb) hr, hf⟩

theorem Reads.readFrom_eq_ok (h : Reads s cs s' []) (hf : s'.finish = some f) (pos last : Nat) :
    readFrom s pos last none cs = .ok f := by
  generalize hcs' : [] = cs' at h
  induction h generalizing pos last with
  | done =>
    subst hcs'
    rw [readFrom.eq_def]
    dsimp only
    rw [hf]
  | space hc _ ih =>
    rw [readFrom, if_pos hc]
    exact ih hf _ _ hcs'
  | token hc ht hs hb _ ih =>
    rw [readFrom, if_neg (by simp [hc]), ht]
    dsimp only
    rw [hs, noteBinder_none.2 hb]
    exact ih hf _ _ hcs'

theorem parse_eq_ok_iff {text : String} :
    parse text = .ok f ↔ text.toList.all Text.isBlank = false ∧
      ∃ s, Reads (.formula []) text.toList s [] ∧ s.finish = some f := by
  rw [parse, parseChars]
  split
  · next hb => simp [hb]
  · next hb =>
    constructor
    · intro h
      split at h
      · next hr =>
        cases h
        exact ⟨by simpa using hb, Reads.of_readFrom hr⟩
      · cases h
    · rintro ⟨-, s, hr, hf⟩
      rw [hr.readFrom_eq_ok hf]

/-! ### Readable states -/

def Frame.isReadable : Frame → Bool
  | .group | .not => true
  | .all xs | .ex xs => xs.all isVariable
  | .and f | .or f | .implies f | .iff f => f.isReadable

def AreReadable (st : List Frame) : Prop := ∀ fr ∈ st, fr.isReadable = true

def Call.IsReadable (isName : String → Bool) (c : Call) : Prop :=
  isName c.name = true ∧ ∀ t ∈ c.args, t.isReadable = true

/-- Applications that are being read, around them an atom. -/
def CallsReadable (calls : List Call) (atom : Call) : Prop :=
  (∀ c ∈ calls, c.IsReadable fun n => isWord n.toList) ∧ atom.IsReadable isPredicate

/-- The innermost application has an argument already. -/
def HasArgument (calls : List Call) (atom : Call) : Prop := (calls.headD atom).args ≠ []

/-- Everything at hand in a state is readable. -/
def State.IsReadable : State → Prop
  | .formula st => AreReadable st
  | .binder _ xs st | .afterBinder _ xs st => xs.all isVariable = true ∧ AreReadable st
  | .afterName p st => isPredicate p = true ∧ AreReadable st
  | .afterFormula f st => f.isReadable = true ∧ AreReadable st
  | .term calls atom st => CallsReadable calls atom ∧ AreReadable st
  | .afterTermName n calls atom st =>
    isWord n.toList = true ∧ CallsReadable calls atom ∧ AreReadable st
  | .afterTerm calls atom st =>
    CallsReadable calls atom ∧ HasArgument calls atom ∧ AreReadable st

theorem AreReadable.cons (hfr : fr.isReadable = true) (hst : AreReadable st) :
    AreReadable (fr :: st) :=
  List.forall_mem_cons.2 ⟨hfr, hst⟩

/-- Quantifiers of one kind in a row. -/
theorem isReadable_foldr {mk : Binder → Formula → Formula}
    (hmk : ∀ x g, (mk (.var x) g).isReadable = (isVariable x && g.isReadable)) (xs : List String)
    (f : Formula) : (xs.foldr (fun x g => mk (.var x) g) f).isReadable =
      (xs.all isVariable && f.isReadable) := by
  induction xs with
  | nil => rfl
  | cons x xs ih => rw [List.foldr_cons, hmk, ih, List.all_cons, Bool.and_assoc]

theorem isReadable_close (hfr : fr.isReadable = true) (hf : f.isReadable = true) :
    (fr.close f).isReadable = true := by
  cases fr with
  | group | not => exact hf
  | all xs =>
    rw [Frame.close, isReadable_foldr (fun _ _ => rfl), hf, Bool.and_true]
    exact hfr
  | ex xs =>
    rw [Frame.close, isReadable_foldr (fun _ _ => rfl), hf, Bool.and_true]
    exact hfr
  | and g | or g | implies g | iff g =>
    simp only [Frame.isReadable] at hfr
    simp [Frame.close, Formula.isReadable, hfr, hf]

theorem isReadable_settle {n : Nat} (hf : f.isReadable = true) (hst : AreReadable st) :
    (settle n f st).1.isReadable = true ∧ AreReadable (settle n f st).2 := by
  induction st generalizing f with
  | nil => exact ⟨hf, hst⟩
  | cons fr st ih =>
    obtain ⟨hfr, hrest⟩ := List.forall_mem_cons.1 hst
    rw [settle]
    split
    · exact ih (isReadable_close hfr hf) hrest
    · exact ⟨hf, hst⟩

section
variable {calls : List Call} {atom : Call} {u : Term}

theorem callsReadable_pushArg (h : CallsReadable calls atom) (hu : u.isReadable = true) :
    CallsReadable (State.pushArg u calls atom).1 (State.pushArg u calls atom).2 ∧
      HasArgument (State.pushArg u calls atom).1 (State.pushArg u calls atom).2 := by
  have hpush : ∀ {isName} {c : Call}, c.IsReadable isName → (c.push u).IsReadable isName := by
    intro isName c hc
    refine ⟨hc.1, fun t ht => ?_⟩
    rcases List.mem_append.1 ht with ht | ht
    · exact hc.2 t ht
    · exact List.mem_singleton.1 ht ▸ hu
  cases calls with
  | nil => exact ⟨⟨nofun, hpush h.2⟩, by simp [HasArgument, State.pushArg, Call.push]⟩
  | cons c calls =>
    obtain ⟨hc, hcalls⟩ := List.forall_mem_cons.1 h.1
    exact ⟨⟨List.forall_mem_cons.2 ⟨hpush hc, hcalls⟩, h.2⟩,
      by simp [HasArgument, State.pushArg, Call.push]⟩

theorem isReadable_closeCall (h : CallsReadable calls atom) (ha : HasArgument calls atom)
    (hst : AreReadable st) : (State.closeCall st calls atom).IsReadable := by
  cases calls with
  | nil =>
    refine ⟨?_, hst⟩
    simp [Formula.isReadable, h.2.1, Term.areReadable_iff.2 h.2.2]
  | cons c calls =>
    obtain ⟨hc, hcalls⟩ := List.forall_mem_cons.1 h.1
    obtain ⟨hpushed, harg⟩ := callsReadable_pushArg ⟨hcalls, h.2⟩ (Term.isReadable_app hc.1 hc.2 ha)
    exact ⟨hpushed, harg, hst⟩

end

/-! ### What a step keeps -/

theorem isReadable_begin (hst : AreReadable st) (ht : tokenWhere allowed cs = some t)
    (ha : ∀ k, startsFormula k = true → allowed k = true) (hs : State.begin st t = some s') :
    s'.IsReadable := by
  rw [State.begin] at hs
  split at hs
  · next hk =>
    cases hs
    obtain ⟨hword, hkeys⟩ := name_of_tokenWhere ht hk
    refine ⟨?_, hst⟩
    -- the keywords that may stand here are not taken for names
    have hnot := hkeys (['n', 'o', 't'], .notWord) (by decide) (ha _ rfl)
    have hall := hkeys (['f', 'o', 'r', 'a', 'l', 'l'], .allWord) (by decide) (ha _ rfl)
    have hex := hkeys (['e', 'x', 'i', 's', 't', 's'], .exWord) (by decide) (ha _ rfl)
    simp [isPredicate, hword, ← String.toList_inj, hnot.symm, hall.symm, hex.symm]
  all_goals cases hs
  · exact hst.cons rfl
  · exact hst.cons rfl
  · exact ⟨rfl, hst⟩
  · exact ⟨rfl, hst⟩
  · exact ⟨rfl, hst⟩
  · exact ⟨rfl, hst⟩
  · exact hst.cons rfl

theorem isReadable_goOn (hf : f.isReadable = true) (hst : AreReadable st)
    (hs : State.goOn f st t = some s') : s'.IsReadable := by
  have hsettle := fun n => isReadable_settle (n := n) hf hst
  -- the connectives, of which some have a sign and a word
  have hopen : ∀ n (mk : Formula → Frame), (∀ g, (mk g).isReadable = g.isReadable) →
      some (.formula (mk (settle n f st).1 :: (settle n f st).2)) = some s' → s'.IsReadable := by
    rintro n mk hmk ⟨⟩
    exact (hsettle n).2.cons ((hmk _).trans (hsettle n).1)
  rw [State.goOn] at hs
  split at hs
  · exact hopen 4 .and (fun _ => rfl) hs
  · exact hopen 4 .and (fun _ => rfl) hs
  · exact hopen 3 .or (fun _ => rfl) hs
  · exact hopen 3 .or (fun _ => rfl) hs
  · exact hopen 3 .implies (fun _ => rfl) hs
  · exact hopen 1 .iff (fun _ => rfl) hs
  · exact hopen 1 .iff (fun _ => rfl) hs
  · split at hs
    · next g rest hg =>
      cases hs
      obtain ⟨hgr, hrest⟩ := hg ▸ hsettle 1
      exact ⟨hgr, (List.forall_mem_cons.1 hrest).2⟩
    · cases hs
  · cases hs

theorem isReadable_step (h : s.IsReadable) (ht : tokenWhere s.expecting.allows cs = some t)
    (hb : s.admits t = true) (hs : s.step t = some s') : s'.IsReadable := by
  cases s with
  | formula st => exact isReadable_begin h ht (fun k hk => hk) hs
  | binder q xs st =>
    rw [State.step] at hs
    split at hs
    · next hk =>
      cases hs
      obtain ⟨hword, -⟩ := name_of_tokenWhere ht hk
      refine ⟨?_, h.2⟩
      have hvar : isVariableName t.text = true := hb
      simp only [List.all_append, h.1, List.all_cons, List.all_nil, isVariable,
        String.toList_ofList, hword, hvar, Bool.and_true]
    · cases hs
  | afterBinder q xs st =>
    have hst : AreReadable (State.quantifier q xs :: st) := by
      refine h.2.cons ?_
      cases q <;> exact h.1
    rw [State.step] at hs
    split at hs
    · cases hs
      exact h
    · cases hs
      exact hst
    · exact isReadable_begin hst ht (fun k hk => by simp [State.expecting, Expecting.allows, hk]) hs
  | afterName p st =>
    rw [State.step] at hs
    split at hs
    · cases hs
      exact ⟨⟨nofun, h.1, nofun⟩, h.2⟩
    · refine isReadable_goOn ?_ h.2 hs
      simp [Formula.isReadable, Term.areReadable, h.1]
  | afterFormula f st => exact isReadable_goOn h.1 h.2 hs
  | term calls atom st =>
    rw [State.step] at hs
    split at hs
    · next hk =>
      cases hs
      obtain ⟨hword, -⟩ := name_of_tokenWhere ht hk
      exact ⟨by rwa [String.toList_ofList], h⟩
    · cases hs
  | afterTermName n calls atom st =>
    obtain ⟨hn, hcalls, hst⟩ := h
    obtain ⟨hpushed, harg⟩ := callsReadable_pushArg hcalls (isReadable_bareTerm hn)
    rw [State.step] at hs
    split at hs
    all_goals cases hs
    · exact ⟨⟨List.forall_mem_cons.2 ⟨⟨hn, nofun⟩, hcalls.1⟩, hcalls.2⟩, hst⟩
    · exact ⟨hpushed, hst⟩
    · exact isReadable_closeCall hpushed harg hst
  | afterTerm calls atom st =>
    obtain ⟨hcalls, harg, hst⟩ := h
    rw [State.step] at hs
    split at hs
    all_goals cases hs
    · exact ⟨hcalls, hst⟩
    · exact isReadable_closeCall hcalls harg hst

theorem Reads.isReadable (h : Reads s cs s' cs') (hs : s.IsReadable) : s'.IsReadable := by
  induction h with
  | done => exact hs
  | space _ _ ih => exact ih hs
  | token _ ht hstep hb _ ih => exact ih (isReadable_step hs ht hb hstep)

theorem isReadable_closeAll (hg : g.isReadable = true) (hst : AreReadable st)
    (hf : State.finish.closeAll g st = some f) : f.isReadable = true := by
  have hsettle := isReadable_settle (n := 1) hg hst
  rw [State.finish.closeAll] at hf
  split at hf
  · next h =>
    cases hf
    rw [h] at hsettle
    exact hsettle.1
  · cases hf

theorem isReadable_finish (h : s.IsReadable) (hf : s.finish = some f) : f.isReadable = true := by
  cases s with
  | afterName p st =>
    refine isReadable_closeAll ?_ h.2 hf
    simp [Formula.isReadable, Term.areReadable, h.1]
  | afterFormula g st => exact isReadable_closeAll h.1 h.2 hf
  | _ => cases hf

/-- Whatever is read from a text is readable. -/
theorem isReadable_of_parse {text : String} (h : parse text = .ok f) : f.isReadable = true := by
  obtain ⟨-, s, hr, hf⟩ := parse_eq_ok_iff.1 h
  exact isReadable_finish (hr.isReadable nofun) hf

end Notation

end Elenchus
