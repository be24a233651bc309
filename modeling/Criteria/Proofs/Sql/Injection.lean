import Criteria.Proofs.Sql.Build
import Criteria.Proofs.Sql.WellFormed

/-!
# Texts stay inside literals

The texts of a filter reach its condition as the contents of string literals and nowhere else:
what stands outside the literals is the same for all texts of one class.

**Results.**
* `strings_compile`: the literals of a condition are the texts of its constraints in order.
* `AlikeFilters.compile`: outside its literals a condition does not depend on the texts.
* `injection_safe`: both, for every filter that has been read and the text built for it.
-/

namespace Criteria
namespace Sql

mutual

/-- The texts in a value from left to right. -/
def texts : Value → List String
  | .text s => [s]
  | .list items => textsOfItems items
  | .integer _ | .float _ | .boolean _ => []

def textsOfItems : List Value → List String
  | [] => []
  | v :: vs => texts v ++ textsOfItems vs

end

/-- The texts that an equality writes: in a pattern, stars have become percent signs. -/
def equalityTexts : Value → List String
  | .text s => [if isPattern s then percent s else s]
  | v => texts v

/-- The texts that a constraint writes. -/
def Options.texts (options : Options) : Constraint → List String
  | .presence _ => []
  | .comparison name (.tagged _) v => Sql.texts (options.transformer name v)
  | .comparison name _ v => equalityTexts (options.transformer name v)

/-- The contents of the literals among pieces of text. -/
def contents (ps : List Piece) : List String :=
  ps.filterMap fun
    | .literal s => some s
    | .code _ => none

/-- A piece without the content of a literal. -/
def Piece.erase : Piece → Piece
  | .literal _ => .literal ""
  | .code c => .code c

/-- Pieces without the contents of the literals. -/
def skeleton (ps : List Piece) : List Piece :=
  ps.map Piece.erase

mutual

/-- Values that differ only in their texts. -/
def Alike : Value → Value → Prop
  | .text _, .text _ => True
  | .integer m, .integer n => m = n
  | .float x, .float y => x = y
  | .boolean a, .boolean b => a = b
  | .list vs, .list ws => AlikeItems vs ws
  | _, _ => False

def AlikeItems : List Value → List Value → Prop
  | [], [] => True
  | v :: vs, w :: ws => Alike v w ∧ AlikeItems vs ws
  | _, _ => False

end

/-- Texts of one class: patterns or not for an equality, points in time or not for an ordering. -/
def SameClass : Operator → Value → Value → Prop
  | .tagged _, .text s, .text t => Calendar.isTimestamp s = Calendar.isTimestamp t
  | _, .text s, .text t => isPattern s = isPattern t
  | _, _, _ => True

/-- Constraints with one selector and operator, whose rewritten values differ only in texts of one
class. -/
def AlikeConstraints (options options' : Options) : Constraint → Constraint → Prop
  | .presence a, .presence b => a = b
  | .comparison a op v, .comparison b op' w =>
      a = b ∧ op = op' ∧ Alike (options.transformer a v) (options'.transformer b w) ∧
        SameClass op (options.transformer a v) (options'.transformer b w)
  | _, _ => False

/-- Filters of one shape, whose constraints are alike. -/
def AlikeFilters (options options' : Options) : Expr → Expr → Prop
  | .constraint c, .constraint d => AlikeConstraints options options' c d
  | .and l r, .and l' r' | .or l r, .or l' r' =>
      AlikeFilters options options' l l' ∧ AlikeFilters options options' r r'
  | _, _ => False

/-! ### The contents of literals -/

section Contents

/-- The contents of the string symbols. -/
def strings (ss : List Symbol) : List String :=
  ss.filterMap fun
    | .string s => some s
    | _ => none

theorem strings_append (ss ss' : List Symbol) : strings (ss ++ ss') = strings ss ++ strings ss' :=
  List.filterMap_append

theorem contents_codes (cs : List Char) : contents (cs.map .code) = [] := by
  induction cs with
  | nil => rfl
  | cons c cs ih => exact ih

theorem contents_pieces (ss : List Symbol) : contents (ss.flatMap Symbol.pieces) = strings ss := by
  induction ss with
  | nil => rfl
  | cons s rest ih =>
    have hsplit : contents ((s :: rest).flatMap Symbol.pieces) =
        contents s.pieces ++ contents (rest.flatMap Symbol.pieces) := List.filterMap_append
    rw [hsplit, ih]
    cases s with
    | string t => rfl
    | word w => exact congrArg (· ++ strings rest) (contents_codes w)
    | sign s => exact congrArg (· ++ strings rest) (contents_codes s)
    | _ => rfl

mutual

theorem strings_valueLiteral : ∀ v : Value, strings (valueLiteral v).symbols = texts v
  | .text _ => rfl
  | .integer _ => rfl
  | .float _ => rfl
  | .boolean _ => rfl
  | .list items => by
      have hitems := strings_items items
      simp only [valueLiteral, Literal.symbols, texts, ← hitems]
      exact strings_append (itemsSymbols _) [.closing] |>.trans (List.append_nil _)

theorem strings_items : ∀ vs : List Value,
    strings (itemsSymbols (valueLiterals vs)) = textsOfItems vs
  | [] => rfl
  | [v] => by
      rw [textsOfItems, textsOfItems, List.append_nil]
      exact strings_valueLiteral v
  | v :: w :: rest => by
      have hrest := strings_items (w :: rest)
      rw [textsOfItems, ← hrest, ← strings_valueLiteral v, valueLiterals, valueLiterals,
        itemsSymbols_cons_cons, strings_append]
      rfl

end

theorem strings_negation (negated : Bool) (ss : List Symbol) :
    strings (negation negated ++ ss) = strings ss := by
  cases negated <;> rfl

theorem strings_compileEquality (caseSensitive negated : Bool) (selector : String) (v : Value) :
    strings (compileEquality caseSensitive negated selector v).symbols = equalityTexts v := by
  cases v with
  | text s =>
    rw [compileEquality, equalityTexts]
    split_ifs
    · exact strings_negation negated _
    · rfl
    · rfl
  | list items =>
    cases items with
    | nil => rfl
    | cons v vs =>
      refine (strings_negation negated _).trans ?_
      exact (strings_append (itemsSymbols (valueLiterals (v :: vs))) [.closing]).trans
        ((List.append_nil _).trans (strings_items (v :: vs)))
  | _ => rfl

theorem strings_compile {options : Options} {e : Expr} {c : Condition}
    (h : compile options e = some c) : strings c.symbols = e.constraints.flatMap options.texts := by
  induction e generalizing c with
  | constraint leaf =>
    have hleaf : strings c.symbols = options.texts leaf := by
      obtain ⟨_, rfl, rfl⟩ | ⟨_, _, _, hop, rfl, rfl⟩ | ⟨_, _, _, _, rfl, _, rfl⟩ :=
        compileConstraint_cases h
      · rfl
      · rw [strings_compileEquality]
        rcases hop with rfl | rfl <;> rfl
      · exact strings_valueLiteral _
    simp [Expr.constraints, hleaf]
  | and l r ihl ihr =>
    obtain ⟨cl, cr, hl, hr, rfl⟩ := compile_and_eq_some.1 h
    rw [Expr.constraints, List.flatMap_append, ← ihl hl, ← ihr hr]
    simp [Condition.symbols, strings, List.filterMap_append]
  | or l r ihl ihr =>
    obtain ⟨cl, cr, hl, hr, rfl⟩ := compile_or_eq_some.1 h
    rw [Expr.constraints, List.flatMap_append, ← ihl hl, ← ihr hr]
    simp [Condition.symbols, strings, List.filterMap_append]

end Contents

/-! ### The text outside literals -/

section Skeleton

/-- A symbol without the content of a literal. -/
def Symbol.erase : Symbol → Symbol
  | .string _ => .string ""
  | s => s

theorem skeleton_pieces (ss : List Symbol) :
    skeleton (ss.flatMap Symbol.pieces) = (ss.map Symbol.erase).flatMap Symbol.pieces := by
  have herase (s : Symbol) : skeleton s.pieces = s.erase.pieces := by
    cases s <;> simp [Symbol.pieces, Symbol.erase, skeleton, Piece.erase]
  induction ss with
  | nil => rfl
  | cons s rest ih =>
    rw [List.flatMap_cons, List.map_cons, List.flatMap_cons, ← ih, ← herase]
    exact List.map_append

mutual

theorem Alike.erase : ∀ {v w : Value}, Alike v w →
    (valueLiteral v).symbols.map Symbol.erase = (valueLiteral w).symbols.map Symbol.erase
  | .text _, .text _, _ => rfl
  | .integer _, .integer _, rfl => rfl
  | .float _, .float _, rfl => rfl
  | .boolean _, .boolean _, rfl => rfl
  | .list vs, .list ws, h => by
      have hitems := AlikeItems.erase vs ws h
      simp [valueLiteral, Literal.symbols, hitems]

theorem AlikeItems.erase : ∀ vs ws : List Value, AlikeItems vs ws →
    (itemsSymbols (valueLiterals vs)).map Symbol.erase =
      (itemsSymbols (valueLiterals ws)).map Symbol.erase
  | [], [], _ => rfl
  | [v], [w], h => h.1.erase
  | v :: v' :: vs, w :: w' :: ws, h => by
      have hfirst := h.1.erase
      have hrest := AlikeItems.erase (v' :: vs) (w' :: ws) h.2
      simp only [valueLiterals, itemsSymbols_cons_cons, List.map_append, List.map_cons] at hrest ⊢
      rw [hfirst, hrest]

end

theorem Alike.compileEquality_erase {v w : Value} (h : Alike v w)
    (hclass : ∀ s t, v = .text s → w = .text t → isPattern s = isPattern t)
    (caseSensitive negated : Bool) (selector : String) :
    (compileEquality caseSensitive negated selector v).symbols.map Symbol.erase =
      (compileEquality caseSensitive negated selector w).symbols.map Symbol.erase := by
  cases v <;> cases w <;> try exact h.elim
  case text.text s t =>
    rw [compileEquality, compileEquality, hclass s t rfl rfl]
    split_ifs
    · simp [Condition.symbols, Symbol.erase]
    · rfl
    · rfl
  case list.list vs ws =>
    cases vs with
    | nil =>
      cases ws with
      | nil => rfl
      | cons w ws => exact h.elim
    | cons v vs =>
      cases ws with
      | nil => exact h.elim
      | cons w ws =>
        have hitems := AlikeItems.erase (v :: vs) (w :: ws) h
        simp [compileEquality, Condition.symbols, hitems]
  case integer.integer => cases h; rfl
  case float.float => cases h; rfl
  case boolean.boolean => cases h; rfl

variable {options options' : Options}

theorem AlikeConstraints.compileConstraint {leaf leaf' : Constraint} {c : Condition}
    (h : AlikeConstraints options options' leaf leaf')
    (hcase : options'.caseSensitive = options.caseSensitive)
    (hc : compileConstraint options leaf = some c) :
    ∃ c', compileConstraint options' leaf' = some c' ∧
      c'.symbols.map Symbol.erase = c.symbols.map Symbol.erase := by
  cases leaf with
  | presence a =>
    cases leaf' with
    | presence b =>
      obtain rfl : a = b := h
      exact ⟨c, hc, rfl⟩
    | comparison => exact h.elim
  | comparison a op v =>
    cases leaf' with
    | presence => exact h.elim
    | comparison b op' w =>
      obtain ⟨rfl, rfl, halike, hclass⟩ := h
      rcases isEquality_or_tagged op with hop | ⟨tag, rfl⟩
      · rw [compileConstraint_equality hop, Option.some.injEq] at hc
        subst hc
        refine ⟨_, compileConstraint_equality hop a w, ?_⟩
        rw [hcase]
        refine (halike.compileEquality_erase (fun s t hs ht => ?_) _ _ a).symm
        rw [hs, ht] at hclass
        rcases hop with rfl | rfl <;> exact hclass
      · obtain ⟨op, hop, rfl⟩ := compileConstraint_tagged.1 hc
        refine ⟨_, compileConstraint_tagged.2 ⟨op, hop, rfl⟩, ?_⟩
        simp [Condition.symbols, halike.erase]

/-- The condition for an alike filter differs in the contents of its literals only. -/
theorem AlikeFilters.compile {e e' : Expr} {c : Condition} (h : AlikeFilters options options' e e')
    (hcase : options'.caseSensitive = options.caseSensitive) (hc : compile options e = some c) :
    ∃ c', compile options' e' = some c' ∧
      c'.symbols.map Symbol.erase = c.symbols.map Symbol.erase := by
  induction e generalizing e' c with
  | constraint leaf =>
    cases e' with
    | constraint leaf' => exact AlikeConstraints.compileConstraint h hcase hc
    | and l' r' => exact h.elim
    | or l' r' => exact h.elim
  | and l r ihl ihr =>
    cases e' with
    | constraint leaf' => exact h.elim
    | and l' r' =>
      obtain ⟨cl, cr, hl, hr, rfl⟩ := compile_and_eq_some.1 hc
      obtain ⟨cl', hl', hleft⟩ := ihl h.1 hl
      obtain ⟨cr', hr', hright⟩ := ihr h.2 hr
      refine ⟨_, compile_and_eq_some.2 ⟨cl', cr', hl', hr', rfl⟩, ?_⟩
      simp [Condition.symbols, hleft, hright]
    | or l' r' => exact h.elim
  | or l r ihl ihr =>
    cases e' with
    | constraint leaf' => exact h.elim
    | and l' r' => exact h.elim
    | or l' r' =>
      obtain ⟨cl, cr, hl, hr, rfl⟩ := compile_or_eq_some.1 hc
      obtain ⟨cl', hl', hleft⟩ := ihl h.1 hl
      obtain ⟨cr', hr', hright⟩ := ihr h.2 hr
      refine ⟨_, compile_or_eq_some.2 ⟨cl', cr', hl', hr', rfl⟩, ?_⟩
      simp [Condition.symbols, hleft, hright]

theorem AlikeConstraints.accepts {leaf leaf' : Constraint}
    (h : AlikeConstraints options options' leaf leaf') (hleaf : options.Accepts leaf)
    (hallowed : options'.isAllowed leaf'.selector = true) : options'.Accepts leaf' := by
  cases leaf with
  | presence a =>
    cases leaf' with
    | presence b => exact hallowed
    | comparison => exact h.elim
  | comparison a op v =>
    cases leaf' with
    | presence => exact h.elim
    | comparison b op' w =>
      obtain ⟨rfl, rfl, halike, hclass⟩ := h
      cases op with
      | equal => exact hallowed
      | notEqual => exact hallowed
      | tagged tag =>
        obtain ⟨_, htag, horderable⟩ := hleaf
        refine ⟨hallowed, htag, ?_⟩
        revert halike hclass horderable
        generalize options.transformer a v = x
        generalize options'.transformer a w = y
        intro halike hclass horderable
        cases x <;> cases y <;> try exact halike.elim
        case text.text s t => exact hclass.symm.trans horderable
        all_goals exact horderable

/-- Each constraint of an alike filter is alike to one of the filter. -/
theorem AlikeFilters.exists_constraint {e e' : Expr} (h : AlikeFilters options options' e e') :
    ∀ leaf' ∈ e'.constraints,
      ∃ leaf ∈ e.constraints, AlikeConstraints options options' leaf leaf' := by
  intro leaf' hmem
  induction e generalizing e' with
  | constraint leaf =>
    cases e' with
    | constraint _ =>
      obtain rfl := List.mem_singleton.1 hmem
      exact ⟨leaf, List.mem_singleton_self leaf, h⟩
    | and l' r' => exact h.elim
    | or l' r' => exact h.elim
  | and l r ihl ihr =>
    cases e' with
    | constraint _ => exact h.elim
    | and l' r' =>
      rcases List.mem_append.1 hmem with hmem | hmem
      · obtain ⟨leaf, hleaf, halike⟩ := ihl h.1 hmem
        exact ⟨leaf, List.mem_append_left _ hleaf, halike⟩
      · obtain ⟨leaf, hleaf, halike⟩ := ihr h.2 hmem
        exact ⟨leaf, List.mem_append_right _ hleaf, halike⟩
    | or l' r' => exact h.elim
  | or l r ihl ihr =>
    cases e' with
    | constraint _ => exact h.elim
    | and l' r' => exact h.elim
    | or l' r' =>
      rcases List.mem_append.1 hmem with hmem | hmem
      · obtain ⟨leaf, hleaf, halike⟩ := ihl h.1 hmem
        exact ⟨leaf, List.mem_append_left _ hleaf, halike⟩
      · obtain ⟨leaf, hleaf, halike⟩ := ihr h.2 hmem
        exact ⟨leaf, List.mem_append_right _ hleaf, halike⟩

end Skeleton

/-! ### Filters that have been read -/

/-- Scanning the condition for a filter that has been read. -/
theorem scan_condition {text w : String} {e : Expr} {options : Options}
    (hparse : Expr.parse text = .ok e) (hw : options.condition e = .ok w) :
    ∃ c, compile options e = some c ∧
      scan w.toList = some (c.symbols.flatMap Symbol.pieces) := by
  obtain ⟨c, hc, htext⟩ := condition_eq_ok hw
  have hwf := wellFormed_of_compile (fun leaf hleaf => Expr.parse_isName hparse hleaf) hc
  exact ⟨c, hc, by rw [htext, scan_spell hwf.separated]⟩

/-- **Texts stay inside literals.**  Scanning the condition of a query ends outside a literal; its
literals are the texts of the constraints from left to right; and any filter with other texts of
the same classes has a condition with the same text outside its literals. -/
theorem injection_safe {text sql : String} {e : Expr} {options : Options}
    (hparse : Expr.parse text = .ok e) (hsql : options.toSql e = .ok sql) :
    ∃ w ps, options.condition e = .ok w ∧ sql = options.query e w ∧ scan w.toList = some ps ∧
      contents ps = e.constraints.flatMap options.texts ∧
      ∀ (text' : String) (e' : Expr) (options' : Options), Expr.parse text' = .ok e' →
        AlikeFilters options options' e e' → options'.caseSensitive = options.caseSensitive →
        (∀ leaf ∈ e'.constraints, options'.isAllowed leaf.selector = true) →
        ∃ w' ps', options'.condition e' = .ok w' ∧ scan w'.toList = some ps' ∧
          skeleton ps' = skeleton ps := by
  obtain ⟨w, hw, rfl⟩ : ∃ w, options.condition e = .ok w ∧ options.query e w = sql := by
    rw [toSql_eq] at hsql
    cases hw : options.condition e with
    | error err =>
      rw [hw] at hsql
      cases hsql
    | ok w =>
      rw [hw] at hsql
      exact ⟨w, rfl, Except.ok.inj hsql⟩
  -- The condition spells symbols that do not run together, so scanning it finds their pieces.
  obtain ⟨c, hc, hscan⟩ := scan_condition hparse hw
  refine ⟨w, _, hw, rfl, hscan, ?_, ?_⟩
  · rw [contents_pieces, strings_compile hc]
  · intro text' e' options' hparse' halike hcase hallowed
    have haccepts : ∀ leaf' ∈ e'.constraints, options'.Accepts leaf' := by
      intro leaf' hleaf'
      obtain ⟨leaf, hleaf, hleaves⟩ := halike.exists_constraint leaf' hleaf'
      exact hleaves.accepts (exists_condition_iff.1 ⟨w, hw⟩ leaf hleaf) (hallowed leaf' hleaf')
    obtain ⟨w', hw'⟩ := exists_condition_iff.2 haccepts
    obtain ⟨c', hc', hscan'⟩ := scan_condition hparse' hw'
    obtain ⟨c'', hc'', herase⟩ := halike.compile hcase hc
    obtain rfl : c' = c'' := Option.some.inj (hc'.symm.trans hc'')
    exact ⟨w', _, hw', hscan', by rw [skeleton_pieces, skeleton_pieces, herase]⟩

theorem injection_safe_quotes :
    ∃ w ps, ({} : Options).condition (.constraint (.comparison "name" .equal
        (.text "' OR '1' = '1"))) = .ok w ∧
      scan w.toList = some ps ∧ contents ps = ["' OR '1' = '1"] := by
  have hparse : Expr.parse "name==\"' OR '1' = '1\"" =
      .ok (.constraint (.comparison "name" .equal (.text "' OR '1' = '1"))) := by decide +kernel
  have hsql : ({} : Options).toSql (.constraint (.comparison "name" .equal
      (.text "' OR '1' = '1"))) =
        .ok "SELECT * FROM table WHERE name = ''' OR ''1'' = ''1'" := by decide +kernel
  obtain ⟨w, ps, hw, _, hscan, hcontents, _⟩ := injection_safe hparse hsql
  exact ⟨w, ps, hw, hscan, hcontents.trans (by decide +kernel)⟩

end Sql
end Criteria
