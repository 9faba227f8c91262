import Elenchus.Proof.Decoding
import Elenchus.Proofs.JsonText
import Elenchus.Proofs.Traces

/-! Traces in writing and back: the text of a trace is read back step by step. -/

namespace Elenchus

/-! ### Members and bindings -/

namespace Item

theorem alike_str (s t : String) : (Item.str s).alike (.str t) = (s == t) := by
  simp [alike, same, isUndefined]

theorem alike_term (s t : Term) : (Item.term s).alike (.term t) = (s == t) := by
  simp [alike, same, isUndefined]

/-- No two keys are alike. -/
def Distinct (ms : List (Item × Item)) : Prop := ms.Pairwise fun m n => m.1.alike n.1 = false

theorem foldl_put {ms acc : List (Item × Item)} (h : Distinct (acc ++ ms)) :
    ms.foldl (fun acc m => put m.1 m.2 acc) acc = acc ++ ms := by
  induction ms generalizing acc with
  | nil => simp
  | cons m ms ih =>
    have hm : ∀ n ∈ acc, n.1.alike m.1 = false := fun n hn =>
      (List.pairwise_append.1 h).2.2 n hn m (List.mem_cons_self ..)
    rw [List.foldl_cons, put, putBy_of_new hm, ih (by simpa using h)]
    simp

end Item

namespace Proof

/-! ### JSON that carries a value -/

/-- The JSON value has no floating-point numbers, is decoded to the item, and is how the item is
encoded. -/
structure Carries (j : Json) (i : Item) : Prop where
  exact : j.isExact = true
  decoded : decode j = .ok i
  encoded : i.toJson = j

theorem Carries.arr {α : Type} {l : List α} {f : α → Json} {g : α → Item}
    (h : ∀ a ∈ l, Carries (f a) (g a)) : Carries (.arr (l.map f)) (.list (l.map g)) := by
  have hitems : Json.areExact (l.map f) = true ∧ decodeItems (l.map f) = .ok (l.map g) ∧
      Item.toJsonList (l.map g) = l.map f := by
    induction l with
    | nil => exact ⟨rfl, rfl, rfl⟩
    | cons a l ih =>
      obtain ⟨hexact, hdecoded, hencoded⟩ := ih fun b hb => h b (List.mem_cons_of_mem _ hb)
      have ha := h a (List.mem_cons_self ..)
      refine ⟨Bool.and_eq_true_iff.2 ⟨ha.exact, hexact⟩, ?_, ?_⟩
      · rw [List.map_cons, decodeItems, ha.decoded, hdecoded]
        rfl
      · rw [List.map_cons, Item.toJsonList, ha.encoded, hencoded, List.map_cons]
  obtain ⟨hexact, hdecoded, hencoded⟩ := hitems
  refine ⟨hexact, ?_, congrArg Json.arr hencoded⟩
  rw [decode, hdecoded]
  rfl

/-- Members with the values they carry. -/
theorem carries_members {ms : List (String × Json × Item)} (h : ∀ m ∈ ms, Carries m.2.1 m.2.2) :
    Json.membersExact (ms.map fun m => (m.1, m.2.1)) = true ∧
      decodeMembers (ms.map fun m => (m.1, m.2.1)) = .ok (ms.map fun m => (.str m.1, m.2.2)) ∧
      Item.toJsonMembers (ms.map fun m => (.str m.1, m.2.2)) = ms.map fun m => (m.1, m.2.1) := by
  induction ms with
  | nil => exact ⟨rfl, rfl, rfl⟩
  | cons m ms ih =>
    obtain ⟨hexact, hdecoded, hencoded⟩ := ih fun n hn => h n (List.mem_cons_of_mem _ hn)
    have hm := h m (List.mem_cons_self ..)
    refine ⟨Bool.and_eq_true_iff.2 ⟨hm.exact, hexact⟩, ?_, ?_⟩
    · rw [List.map_cons, decodeMembers, hm.decoded, hdecoded]
      rfl
    · rw [List.map_cons, Item.toJsonMembers, hm.encoded, hencoded, List.map_cons]
      rfl

/-- An object carries what its members together are decoded to. -/
theorem Carries.obj {i : Item} (ms : List (String × Json × Item))
    (hkeys : (ms.map Prod.fst).Nodup) (h : ∀ m ∈ ms, Carries m.2.1 m.2.2)
    (hi : decodeObject (ms.map fun m => (.str m.1, m.2.2)) = .ok i)
    (hencoded : i.toJson = .obj (ms.map fun m => (m.1, m.2.1))) :
    Carries (.obj (ms.map fun m => (m.1, m.2.1))) i := by
  have hdistinct : Item.Distinct ([] ++ ms.map fun m => (.str m.1, m.2.2)) := by
    refine List.pairwise_map.2 ((List.pairwise_map.1 hkeys).imp fun hne => ?_)
    rw [Item.alike_str]
    simpa using hne
  obtain ⟨hexact, hdecoded, -⟩ := carries_members h
  refine ⟨hexact, ?_, hencoded⟩
  rw [decode, hdecoded, ok_bind, Item.foldl_put hdistinct]
  exact hi

/-- An object that names no type of its own stays an object. -/
theorem Carries.map (ms : List (String × Json × Item))
    (hkeys : (ms.map Prod.fst).Nodup) (h : ∀ m ∈ ms, Carries m.2.1 m.2.2)
    (hi : decodeObject (ms.map fun m => (.str m.1, m.2.2)) =
      .ok (.map (ms.map fun m => (.str m.1, m.2.2)))) :
    Carries (.obj (ms.map fun m => (m.1, m.2.1))) (.map (ms.map fun m => (.str m.1, m.2.2))) :=
  .obj ms hkeys h hi (congrArg Json.obj (carries_members h).2.2)

theorem Carries.str (s : String) : Carries (.str s) (.str s) := ⟨rfl, rfl, rfl⟩

theorem Carries.int (n : Int) : Carries (.int n) (.int n) := ⟨rfl, rfl, rfl⟩

theorem Carries.bool (b : Bool) : Carries (.bool b) (.bool b) := ⟨rfl, rfl, rfl⟩

theorem Carries.null : Carries .null .null := ⟨rfl, rfl, rfl⟩

end Proof

/-! ### Terms, literals and clauses -/

/-- No variable or symbol has an empty name. -/
def Term.IsNamed (t : Term) : Prop := (∀ x ∈ t.vars, x ≠ "") ∧ ∀ s ∈ t.symbols, s.name ≠ ""

def Literal.IsNamed (l : Literal) : Prop := l.atom.pred ≠ "" ∧ ∀ t ∈ l.atom.args, t.IsNamed

def Clause.IsNamed (c : Clause) : Prop := ∀ l ∈ c.literals, l.IsNamed

instance (t : Term) : Decidable t.IsNamed := inferInstanceAs (Decidable (_ ∧ _))

instance (l : Literal) : Decidable l.IsNamed := inferInstanceAs (Decidable (_ ∧ _))

instance (c : Clause) : Decidable c.IsNamed :=
  inferInstanceAs (Decidable (∀ l ∈ c.literals, l.IsNamed))

/-- Values that are made by constructors: plain values other than floating-point numbers, and terms,
literals and clauses without empty names. -/
def Item.IsMade : Item → Prop
  | .null | .bool _ | .int _ | .str _ => True
  | .term t => t.IsNamed
  | .literal l => l.IsNamed
  | .clause c => c.IsNamed
  | _ => False

instance : (i : Item) → Decidable i.IsMade
  | .null | .bool _ | .int _ | .str _ => isTrue trivial
  | .term t => inferInstanceAs (Decidable t.IsNamed)
  | .literal l => inferInstanceAs (Decidable l.IsNamed)
  | .clause c => inferInstanceAs (Decidable c.IsNamed)
  | .float _ | .list _ | .map _ | .subst _ | .moment _ | .bytes _ | .set _ | .knot _ _ | .back _ =>
    isFalse id

theorem Term.IsNamed.app {f : String} {ts : List Term} (h : (Term.app f ts).IsNamed) :
    f ≠ "" ∧ ∀ t ∈ ts, t.IsNamed := by
  obtain ⟨hvars, hsymbols⟩ := h
  simp only [vars_app, symbols, symbolsList_eq_flatMap] at hvars hsymbols
  refine ⟨hsymbols ⟨f, ts.length⟩ (List.mem_cons_self ..), fun t ht => ⟨fun x hx => ?_, ?_⟩⟩
  · exact hvars x (List.mem_flatMap.2 ⟨t, ht, hx⟩)
  · intro s hs
    exact hsymbols s (List.mem_cons_of_mem _ (List.mem_flatMap.2 ⟨t, ht, hs⟩))

theorem Term.toJsonList_eq_map (ts : List Term) : toJsonList ts = ts.map toJson := by
  induction ts with
  | nil => rfl
  | cons t ts ih => rw [toJsonList, ih, List.map_cons]

theorem Clause.ofList_literals (c : Clause) : ofList c.literals = c := by
  obtain ⟨ls, h⟩ := c
  simp only [ofList, eraseDups_of_nodup h]

namespace Construct

theorem name_str {what s : String} (h : s ≠ "") : name what (.str s) = .ok s := by
  rw [name, if_neg h]

theorem variableTerm_str {x : String} (h : x ≠ "") : variableTerm (.str x) = .ok (.var x) := by
  rw [variableTerm, name_str h]
  rfl

theorem constantTerm_str {c : String} (h : c ≠ "") : constantTerm (.str c) = .ok (.app c []) := by
  rw [constantTerm, name_str h]
  rfl

theorem symbol_str {s : String} (h : s ≠ "") (n : Nat) :
    symbol (.str s) (.int n) = .ok ⟨s, .int n⟩ := by
  rw [symbol, name_str h]
  simp [Item.int?, ok_bind]

theorem arguments_map {s : String} (ts : List Term) :
    arguments ⟨s, .int ts.length⟩ (ts.map .term) = .ok ts := by
  rw [arguments, if_neg, Bindings.mapM_term]
  simp [WrittenSymbol.count, Item.int?]

theorem application_map {f : String} (h : f ≠ "") (ts : List Term) :
    application (.str f) (.int ts.length) (ts.map .term) = .ok (.app f ts) := by
  rw [application, symbol_str h, ok_bind, arguments_map]
  rfl

theorem atom_map {p : String} (h : p ≠ "") (ts : List Term) :
    atom (.str p) (.int ts.length) (ts.map .term) = .ok ⟨p, ts⟩ := by
  rw [atom, symbol_str h, ok_bind, arguments_map]
  rfl

theorem mapM_literal (ls : List Literal) : (ls.map Item.literal).mapM literal = .ok ls := by
  induction ls with
  | nil => rfl
  | cons l ls ih =>
    rw [List.map_cons, List.mapM_cons, ih]
    rfl

theorem clause_map (c : Clause) : clause (c.literals.map .literal) = .ok c := by
  rw [clause, mapM_literal]
  exact congrArg Except.ok (Clause.ofList_literals c)

end Construct

namespace Proof

theorem elements_list (is : List Item) : elements (.list is) = .ok is := rfl

theorem built_ok {α : Type} (a : α) : built (.ok a) = .ok a := rfl

theorem decodeObject_variable {x : String} (h : x ≠ "") :
    decodeObject [(.str "_type", .str "Variable"), (.str "name", .str x)] =
      .ok (.term (.var x)) := by
  simp [decodeObject, Item.find?, Item.alike_str, member, ok_bind, Construct.variableTerm_str h,
    built_ok]

theorem decodeObject_constant {c : String} (h : c ≠ "") :
    decodeObject [(.str "_type", .str "Constant"), (.str "name", .str c)] =
      .ok (.term (.app c [])) := by
  simp [decodeObject, Item.find?, Item.alike_str, member, ok_bind, Construct.constantTerm_str h,
    built_ok]

theorem decodeObject_term {f : String} (h : f ≠ "") (ts : List Term) :
    decodeObject [(.str "_type", .str "Term"), (.str "functor", .str f),
      (.str "args", .list (ts.map .term))] = .ok (.term (.app f ts)) := by
  simp [decodeObject, Item.find?, Item.alike_str, member, ok_bind, elements_list,
    Construct.application_map h, built_ok]

theorem decodeObject_literal {l : Literal} (h : l.atom.pred ≠ "") :
    decodeObject [(.str "_type", .str "Literal"), (.str "predicate", .str l.atom.pred),
      (.str "args", .list (l.atom.args.map .term)), (.str "polarity", .bool l.positive)] =
        .ok (.literal l) := by
  simp [decodeObject, Item.find?, Item.alike_str, member, ok_bind, elements_list,
    Construct.atom_map h, built_ok, Construct.sign]

theorem decodeObject_clause (c : Clause) (text : String) :
    decodeObject [(.str "_type", .str "Clause"), (.str "literals", .list (c.literals.map .literal)),
      (.str "text", .str text)] = .ok (.clause c) := by
  simp [decodeObject, Item.find?, Item.alike_str, member, ok_bind, elements_list,
    Construct.clause_map, built_ok]

theorem carries_term {t : Term} (h : t.IsNamed) : Carries t.toJson (.term t) := by
  induction t with
  | var x =>
    have hx : x ≠ "" := h.1 x (by simp [Term.vars])
    exact .obj [("_type", .str "Variable", .str "Variable"), ("name", .str x, .str x)]
      (by simp) (by simp [Carries.str]) (decodeObject_variable hx) rfl
  | app f ts ih =>
    obtain ⟨hf, hts⟩ := h.app
    cases ts with
    | nil =>
      -- without arguments it is written, and built again, as a constant
      exact .obj [("_type", .str "Constant", .str "Constant"), ("name", .str f, .str f)]
        (by simp) (by simp [Carries.str]) (decodeObject_constant hf) rfl
    | cons t ts =>
      have hargs : Carries (.arr ((t :: ts).map Term.toJson)) (.list ((t :: ts).map .term)) :=
        .arr fun u hu => ih u hu (hts u hu)
      have hjson : (Term.app f (t :: ts)).toJson = .obj [("_type", .str "Term"),
          ("functor", .str f), ("args", .arr ((t :: ts).map Term.toJson))] := by
        rw [Term.toJson, Term.toJsonList_eq_map]
        rfl
      rw [hjson]
      refine .obj [("_type", .str "Term", .str "Term"), ("functor", .str f, .str f),
        ("args", .arr ((t :: ts).map Term.toJson), .list ((t :: ts).map .term))]
        (by simp) ?_ (decodeObject_term hf (t :: ts)) hjson
      simpa only [List.forall_mem_cons] using ⟨.str _, .str _, hargs, by simp⟩

theorem carries_literal {l : Literal} (h : l.IsNamed) : Carries l.toJson (.literal l) := by
  have hargs : Carries (.arr (l.atom.args.map Term.toJson)) (.list (l.atom.args.map .term)) :=
    .arr fun t ht => carries_term (h.2 t ht)
  refine .obj [("_type", .str "Literal", .str "Literal"),
    ("predicate", .str l.atom.pred, .str l.atom.pred),
    ("args", .arr (l.atom.args.map Term.toJson), .list (l.atom.args.map .term)),
    ("polarity", .bool l.positive, .bool l.positive)] (by simp) ?_ (decodeObject_literal h.1) rfl
  simpa only [List.forall_mem_cons] using ⟨.str _, .str _, hargs, .bool _, by simp⟩

theorem carries_clause {c : Clause} (h : c.IsNamed) : Carries c.toJson (.clause c) := by
  have hliterals : Carries (.arr (c.literals.map Literal.toJson))
      (.list (c.literals.map .literal)) :=
    .arr fun l hl => carries_literal (h l hl)
  refine .obj [("_type", .str "Clause", .str "Clause"),
    ("literals", .arr (c.literals.map Literal.toJson), .list (c.literals.map .literal)),
    ("text", .str c.text, .str c.text)] (by simp) ?_ (decodeObject_clause c c.text) rfl
  simpa only [List.forall_mem_cons] using ⟨.str _, hliterals, .str _, by simp⟩

theorem carries_made {i : Item} (h : i.IsMade) : Carries i.toJson i := by
  cases i with
  | null => exact .null
  | bool b => exact .bool b
  | int n => exact .int n
  | str s => exact .str s
  | term t => exact carries_term h
  | literal l => exact carries_literal h
  | clause c => exact carries_clause h
  | _ => exact h.elim

end Proof

/-! ### Substitutions -/

namespace Bindings

/-- Every variable is bound once and not to itself. -/
structure IsMade (β : Bindings) : Prop where
  nodup : β.domain.Nodup
  named : ∀ b ∈ β.pairs, b.1 ≠ ""
  made : ∀ b ∈ β.pairs, b.2.IsMade
  moved : ∀ b ∈ β.pairs, b.2 ≠ .term (.var b.1)

theorem nodup_foldl_put (ps : List (String × Item)) {bs : List (String × Item)}
    (h : (bs.map Prod.fst).Nodup) :
    ((ps.foldl (fun bs p => put p.1 p.2 bs) bs).map Prod.fst).Nodup := by
  induction ps generalizing bs with
  | nil => exact h
  | cons p ps ih => exact ih (nodup_put h)

theorem mem_of_mem_foldl_put {ps bs : List (String × Item)} {b : String × Item}
    (h : b ∈ ps.foldl (fun bs p => put p.1 p.2 bs) bs) : b ∈ bs ∨ b ∈ ps := by
  induction ps generalizing bs with
  | nil => exact .inl h
  | cons p ps ih =>
    obtain hb | hb := ih h
    · obtain rfl | hb := mem_of_mem_put hb
      · exact .inr (List.mem_cons_self ..)
      · exact .inl hb
    · exact .inr (List.mem_cons_of_mem _ hb)

/-- Substitutions that are read from a list of pairs are made so. -/
theorem isMade_ofList {ps : List (String × Item)} (h : ∀ p ∈ ps, p.1 ≠ "" ∧ p.2.IsMade) :
    (ofList ps).IsMade := by
  have hmem : ∀ b ∈ (ofList ps).pairs, b ∈ ps ∧ b.2 ≠ .term (.var b.1) := by
    intro b hb
    obtain ⟨hb, hmoved⟩ := List.mem_filter.1 hb
    refine ⟨(mem_of_mem_foldl_put hb).resolve_left List.not_mem_nil, fun he => ?_⟩
    rw [he] at hmoved
    simp [Item.same] at hmoved
  refine ⟨?_, fun b hb => (h b (hmem b hb).1).1, fun b hb => (h b (hmem b hb).1).2,
    fun b hb => (hmem b hb).2⟩
  have hsub : (ofList ps).pairs.Sublist (ps.foldl (fun bs p => put p.1 p.2 bs) []) :=
    List.filter_sublist
  exact (nodup_foldl_put ps (by simp)).sublist (hsub.map _)

/-- The substitution as a value. -/
def toItem (β : Bindings) : Item := .subst (β.pairs.map fun b => (.term (.var b.1), b.2))

theorem toJson_toItem (β : Bindings) : β.toItem.toJson = β.toJson := by
  have hpairs : ∀ bs : List (String × Item),
      Item.toJsonBindings (bs.map fun b => (.term (.var b.1), b.2)) =
        bs.map fun b => .arr [(Term.var b.1).toJson, b.2.toJson] := by
    intro bs
    induction bs with
    | nil => rfl
    | cons b bs ih =>
      rw [List.map_cons, Item.toJsonBindings, ih]
      rfl
  rw [toItem, Item.toJson, hpairs]
  rfl

end Bindings

theorem Item.eq_of_same_term {t : Term} {i : Item} (h : i.IsMade)
    (hs : (Item.term t).same i = true) : i = .term t := by
  cases i with
  | term u =>
    simp only [same, beq_iff_eq] at hs
    rw [hs]
  | null | bool _ | int _ | str _ | literal _ | clause _ => simp [same, number?] at hs
  | _ => exact h.elim

namespace Proof

variable {β : Bindings}

theorem decodeBindings_pairs (h : β.IsMade) :
    decodeBindings (.list (β.pairs.map fun b => .list [.term (.var b.1), b.2])) = .ok β.toItem := by
  have hpairs : ∀ bs : List (String × Item),
      (bs.map fun b => Item.list [.term (.var b.1), b.2]).mapM pair =
        .ok (bs.map fun b => (.term (.var b.1), b.2)) := by
    intro bs
    induction bs with
    | nil => rfl
    | cons b bs ih =>
      rw [List.map_cons, List.mapM_cons, ih]
      rfl
  -- no pair replaces another one, and none is left out
  have hdistinct : Item.Distinct ([] ++ β.pairs.map fun b => (.term (.var b.1), b.2)) := by
    refine List.pairwise_map.2 ((List.pairwise_map.1 h.nodup).imp fun hne => ?_)
    rw [Item.alike_term]
    simpa using hne
  have hfilter : ((β.pairs.map fun b => (Item.term (.var b.1), b.2)).filter
      fun b => !b.1.same b.2) = β.pairs.map fun b => (.term (.var b.1), b.2) := by
    refine List.filter_eq_self.2 (List.forall_mem_map.2 fun b hb => ?_)
    rw [Bool.not_eq_true', ← Bool.not_eq_true]
    exact fun hs => h.moved b hb (Item.eq_of_same_term (h.made b hb) hs)
  rw [decodeBindings, elements_list, ok_bind, hpairs, ok_bind, Item.foldl_put hdistinct]
  exact congrArg (fun bs => Except.ok (Item.subst bs)) hfilter

theorem carries_bindings (h : β.IsMade) : Carries β.toJson β.toItem := by
  have hpair : ∀ b ∈ β.pairs, Carries (.arr [(Term.var b.1).toJson, b.2.toJson])
      (.list [.term (.var b.1), b.2]) := by
    intro b hb
    have hvar : (Term.var b.1).IsNamed := by
      simpa [Term.IsNamed, Term.vars, Term.symbols] using h.named b hb
    refine .arr (l := [.term (.var b.1), b.2]) (f := Item.toJson) (g := id) ?_
    simpa using ⟨carries_term hvar, carries_made (h.made b hb)⟩
  have hdecoded : decodeObject [(.str "_type", .str "Substitution"),
      (.str "bindings", .list (β.pairs.map fun b => .list [.term (.var b.1), b.2]))] =
        .ok β.toItem := by
    simp [decodeObject, Item.find?, Item.alike_str, member, ok_bind, decodeBindings_pairs h]
  refine .obj [("_type", .str "Substitution", .str "Substitution"),
    ("bindings",
      .arr (β.pairs.map fun (b : String × Item) => .arr [(Term.var b.1).toJson, b.2.toJson]),
      .list (β.pairs.map fun (b : String × Item) => .list [.term (.var b.1), b.2]))]
    (by simp) ?_ hdecoded β.toJson_toItem
  simpa only [List.forall_mem_cons] using ⟨.str _, .arr hpair, by simp⟩

end Proof

/-! ### Steps and traces -/

structure Derivation.IsMade (d : Derivation) : Prop where
  rule : d.rule.IsMade
  parents : ∀ p ∈ d.parents, p.IsMade
  unifier : ∀ β ∈ d.unifier, β.IsMade
  source : d.source.IsMade

/-- The clause and what is recorded about it are made by constructors. -/
structure Derived.IsMade (d : Derived) : Prop where
  clause : d.clause.IsNamed
  derivation : ∀ e ∈ d.derivation, e.IsMade

theorem Arena.isMade_of_fetch {a : Arena} {id : Item} {f : Filed} (h : a.fetch id = .ok f) :
    id.IsMade := by
  cases id with
  | bool b => trivial
  | int n => trivial
  | float x =>
    rw [fetch, Item.number?] at h
    dsimp only [Item.int?] at h
    split at h <;> cases h
  | _ => cases h

/-- Numbers under which clauses are met are numbers of clauses. -/
theorem Arena.isMade_of_collect {a : Arena} {steps : Nat} {stack : List Item} {seen ms : List Met}
    (hseen : ∀ m ∈ seen, m.label.IsMade) (h : a.collect steps stack seen = .ok ms) :
    ∀ m ∈ ms, m.label.IsMade := by
  fun_induction Arena.collect a steps stack seen with
  | case1 | case2 =>
    cases h
    exact hseen
  | case3 steps id stack seen hmet ih => exact ih hseen h
  | case4 => cases h
  | case5 steps id stack seen hmet f hf ih =>
    exact ih (List.forall_mem_cons.2 ⟨isMade_of_fetch hf, hseen⟩) h

theorem Arena.isMade_of_ancestors {a : Arena} {id : Item} {ms : List Met}
    (h : a.ancestors id = .ok ms) : ∀ m ∈ ms, m.label.IsMade := by
  obtain ⟨ns, hns, rfl⟩ := map_eq_ok h
  intro m hm
  exact isMade_of_collect (by simp) hns m (List.mem_mergeSort.1 hm)

namespace Proof

variable {a : Arena} {id : Item} {s : Step} {t : Trace}

/-- What is recorded in a step is made by constructors. -/
structure Step.IsMade (s : Step) : Prop where
  label : s.label.IsMade
  derived : s.derived.IsMade

theorem Trace.isMade_of_ofArena (ha : ∀ d ∈ a.entries, d.IsMade)
    (h : ofArena a id = .ok t) : ∀ s ∈ t.steps, s.IsMade := by
  obtain ⟨ms, hms, rfl⟩ := map_eq_ok h
  intro s hs
  obtain ⟨x, hx, hs⟩ := List.mem_filterMap.1 hs
  obtain ⟨d, hd, rfl⟩ := Option.map_eq_some_iff.1 hs
  exact ⟨Arena.isMade_of_ancestors hms x.1 (List.fst_mem_of_mem_zipIdx hx),
    ha d (Array.mem_of_getElem? hd)⟩

/-- A step as a value: the clause and the unifier as such, all else as it is recorded. -/
def Step.toItem (s : Step) : Item :=
  .map [(.str "_type", .str "ProofStep"), (.str "index", .int s.index),
    (.str "clause", .clause s.clause), (.str "clause_id", s.label), (.str "rule", s.rule),
    (.str "parents", .list (s.parents.map fun (p : Nat) => .int p)),
    (.str "parent_ids", .list s.parentIds),
    (.str "unifier", (s.unifier.map Bindings.toItem).getD .null), (.str "source", s.source)]

def Trace.toItem (t : Trace) : Item :=
  .map [(.str "_type", .str "ProofTrace"), (.str "length", .int t.length),
    (.str "steps", .list (t.steps.map Step.toItem))]

section
variable (h : s.IsMade)
include h

theorem Step.IsMade.rule : s.rule.IsMade := by
  have hd := h.derived.derivation
  cases he : s.derived.derivation with
  | none => simp [Step.rule, he, Item.IsMade]
  | some e => simpa [Step.rule, he] using (hd e he).rule

theorem Step.IsMade.source : s.source.IsMade := by
  have hd := h.derived.derivation
  cases he : s.derived.derivation with
  | none => simp [Step.source, he, Item.IsMade]
  | some e => simpa [Step.source, he] using (hd e he).source

theorem Step.IsMade.parentIds : ∀ p ∈ s.parentIds, p.IsMade := by
  have hd := h.derived.derivation
  cases he : s.derived.derivation with
  | none => simp [Step.parentIds, Arena.parentsOf, he]
  | some e => simpa [Step.parentIds, Arena.parentsOf, he] using (hd e he).parents

theorem Step.IsMade.carries_unifier :
    Carries (.ofOption Bindings.toJson s.unifier) ((s.unifier.map Bindings.toItem).getD .null) := by
  cases hu : s.unifier with
  | none => exact .null
  | some β =>
    obtain ⟨e, he, hβ⟩ := Option.bind_eq_some_iff.1 hu
    exact carries_bindings ((h.derived.derivation e he).unifier β hβ)

theorem carries_step : Carries s.toJson s.toItem := by
  have hparents : Carries (.arr (s.parents.map fun (p : Nat) => .int p))
      (.list (s.parents.map fun (p : Nat) => .int p)) :=
    .arr fun p _ => .int p
  have hids : Carries (.arr (s.parentIds.map Item.toJson)) (.list (s.parentIds.map id)) :=
    .arr fun p hp => carries_made (h.parentIds p hp)
  rw [List.map_id] at hids
  refine .map [("_type", .str "ProofStep", .str "ProofStep"), ("index", .int s.index, .int s.index),
    ("clause", s.clause.toJson, .clause s.clause), ("clause_id", s.label.toJson, s.label),
    ("rule", s.rule.toJson, s.rule),
    ("parents", .arr (s.parents.map fun (p : Nat) => .int p),
      .list (s.parents.map fun (p : Nat) => .int p)),
    ("parent_ids", .arr (s.parentIds.map Item.toJson), .list s.parentIds),
    ("unifier", .ofOption Bindings.toJson s.unifier, (s.unifier.map Bindings.toItem).getD .null),
    ("source", s.source.toJson, s.source)] (by simp) ?_ ?_
  · simpa only [List.forall_mem_cons] using ⟨.str _, .int _, carries_clause h.derived.clause,
      carries_made h.label, carries_made h.rule, hparents, hids, h.carries_unifier,
      carries_made h.source, by simp⟩
  · simp [decodeObject, Item.find?, Item.alike_str]

end

theorem carries_trace (h : ∀ s ∈ t.steps, s.IsMade) : Carries t.toJson t.toItem := by
  refine .map [("_type", .str "ProofTrace", .str "ProofTrace"),
    ("length", .int t.length, .int t.length),
    ("steps", .arr (t.steps.map Step.toJson), .list (t.steps.map Step.toItem))] (by simp) ?_ ?_
  · simpa only [List.forall_mem_cons] using
      ⟨.str _, .int _, .arr fun s hs => carries_step (h s hs), by simp⟩
  · simp [decodeObject, Item.find?, Item.alike_str]

/-- The text of a trace is decoded to the trace as a value, which is encoded as the trace is. -/
theorem decodeText_toText (ha : ∀ d ∈ a.entries, d.IsMade) (ht : Trace.ofArena a id = .ok t)
    {indent : Option String} (hi : Json.IsIndent indent) :
    decodeText (t.toText indent) = some (.ok t.toItem) ∧ t.toItem.toJson = t.toJson := by
  have hcarries := carries_trace (Trace.isMade_of_ofArena ha ht)
  refine ⟨?_, hcarries.encoded⟩
  rw [decodeText, Trace.toText, Json.read?_render hi hcarries.exact, Option.map_some,
    hcarries.decoded]

/-- Two premises, and what is inferred from them by letting `x` be `a`. -/
def lockedDoor : Arena where
  entries := #[
    { clause := .ofList [⟨⟨"Open", [.var "x"]⟩, true⟩, ⟨⟨"Locked", [.app "door" [.var "x"]]⟩, true⟩]
      derivation := some (.premise (.str "a \"rule\"") .null (.str assumptionRule)) },
    { clause := .ofList [⟨⟨"Open", [.const "a"]⟩, false⟩] },
    { clause := .ofList [⟨⟨"Locked", [.app "door" [.const "a"]]⟩, true⟩]
      derivation := some
        { rule := .str resolutionRule
          parents := [.int 0, .int 1]
          unifier := some (.ofList [("x", .term (.const "a")), ("y", .term (.var "y"))]) } }]

theorem decodeText_toText_lockedDoor :
    (∀ d ∈ lockedDoor.entries, d.IsMade) ∧
      ∃ t, Trace.ofArena lockedDoor (.int 2) = .ok t ∧ t.length = 1 ∧
        decodeText (t.toText fileIndent) = some (.ok t.toItem) ∧ t.toItem.toJson = t.toJson := by
  have hunifier : (Bindings.ofList [("x", .term (.const "a")), ("y", .term (.var "y"))]).IsMade :=
    Bindings.isMade_ofList (by decide)
  have hmade : ∀ d ∈ lockedDoor.entries, d.IsMade := by
    simp only [lockedDoor, List.mem_toArray, List.forall_mem_cons]
    refine ⟨⟨by decide, ?_⟩, ⟨by decide, by simp⟩, ⟨by decide, ?_⟩, by simp⟩
    · rintro e ⟨⟩
      exact ⟨trivial, by simp [Derivation.premise], by simp [Derivation.premise], trivial⟩
    · rintro e ⟨⟩
      exact ⟨trivial, by simp [Item.IsMade], by simpa using hunifier, trivial⟩
  have hsort : lockedDoor.ancestors (.int 2) = .ok [⟨0, .int 0⟩, ⟨1, .int 1⟩, ⟨2, .int 2⟩] := by
    have hcollect : lockedDoor.collect lockedDoor.collectBound [.int 2] [] =
        .ok [⟨0, .int 0⟩, ⟨1, .int 1⟩, ⟨2, .int 2⟩] := by
      rfl
    rw [Arena.ancestors, hcollect, Except.map, List.mergeSort_of_pairwise (by simp)]
  have ht : Trace.ofArena lockedDoor (.int 2) = .ok ⟨stepsOf lockedDoor
      [⟨0, .int 0⟩, ⟨1, .int 1⟩, ⟨2, .int 2⟩]⟩ := by
    rw [ofArena_eq, hsort]
    rfl
  have hindent : Json.IsIndent fileIndent := by
    rintro s ⟨⟩
    simp [Json.IsBlank, Json.isSpace]
  exact ⟨hmade, _, ht, rfl, decodeText_toText hmade ht hindent⟩

end Proof

end Elenchus
