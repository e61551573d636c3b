import Nytrix.Parse.Climb

/-! The trees that the table of precedences gives, and that the parser builds them. -/

namespace Nytrix.Parse.Climb

open Nytrix.Types (nm ch)

/-- An expression with its tokens, in the shape that operators give it. -/
inductive Tree where
  | atom (tok : Tok)
  | group (left : Tok) (inner : Tree) (right : Tok)
  | pre (op : Tok) (inner : Tree)
  | binary (op : Tok) (left right : Tree)
  deriving DecidableEq

/-- Whether a token is an operand by itself. -/
def isAtom (tok : Tok) : Bool := tok.kind = .ident || isLiteral tok.kind

namespace Tree

/-- The tokens of a tree, from left to right. -/
def tokens : Tree → List Tok
  | atom tok => [tok]
  | group left inner right => left :: (inner.tokens ++ [right])
  | pre op inner => op :: inner.tokens
  | binary op left right => left.tokens ++ op :: right.tokens

/-- How tight a tree is bound: operands bind tighter than powers, prefixes as tight as they do. -/
def level : Tree → Nat
  | atom _ | group _ _ _ => 9
  | pre _ _ => precedence .pow
  | binary op _ _ => precedence op.kind

/-- The tokens of a tree are what they stand for. -/
def Spelled : Tree → Prop
  | atom tok => isAtom tok = true
  | group left inner right => left.kind = .lparen ∧ inner.Spelled ∧ right.kind = .rparen
  | pre op inner => isPrefix op.kind = true ∧ inner.Spelled
  | binary op left right => precedence op.kind ≠ 0 ∧ left.Spelled ∧ right.Spelled

/--
A tree is the one of the table.

The sides of a binary operator are bound tighter than it, or as tight on the left; of a power they
are bound tighter, or as tight on the right. What a prefix stands before is bound as powers are.
-/
def Shaped : Tree → Prop
  | atom _ => True
  | group _ inner _ => inner.Shaped
  | pre _ inner => precedence .pow ≤ inner.level ∧ inner.Shaped
  | binary op left right =>
    (if op.kind = .pow then precedence .pow < left.level ∧ precedence .pow ≤ right.level
      else precedence op.kind ≤ left.level ∧ precedence op.kind < right.level) ∧
    left.Shaped ∧ right.Shaped

/-- What the parser makes of a tree. -/
def fold {N : Type} (nodes : Nodes N) : Tree → N
  | atom tok => if tok.kind = .ident then nodes.ident tok else nodes.literal tok
  | group left inner right => nodes.grouped left (inner.fold nodes) right
  | pre op inner => nodes.unary op (inner.fold nodes)
  | binary op left right => nodes.binary op (left.fold nodes) (right.fold nodes)

/-- The number of operators on the left edge of a tree. -/
def spine : Tree → Nat
  | binary _ left _ => left.spine + 1
  | _ => 0

/-- The highest precedence that does not reach into a tree from behind it. -/
def reach : Tree → Nat
  | atom _ | group _ _ _ => 9
  | pre _ _ => 7
  | binary op _ _ => if op.kind = .pow then 7 else precedence op.kind

end Tree

/-- The kind of the first token, or of what stands behind. -/
def kindOr (ts : List Tok) (next : TokenKind) : TokenKind := (ts.head?.map Tok.kind).getD next

/--
No name is an operator, by what stands behind it.

The word for expansion is one always, the words of tasks are before what may start an operand.
-/
def Calm : List Tok → TokenKind → Prop
  | [], _ => True
  | tok :: ts, next =>
    ((tok.kind = .ident → tok.text ≠ nm "expand") ∧
      (isTask tok = true → kindOr ts next ∉ startsOperand)) ∧ Calm ts next

variable {ts us rest : List Tok} {tok op : Tok} {next : TokenKind} {t : Tree}

theorem kindOr_append : kindOr (ts ++ us) next = kindOr ts (kindOr us next) := by
  cases ts with
  | nil => rfl
  | cons tok ts => rfl

theorem calm_append : Calm (ts ++ us) next ↔ Calm ts (kindOr us next) ∧ Calm us next := by
  induction ts with
  | nil => simp [Calm]
  | cons tok ts ih =>
    rw [List.cons_append, Calm, Calm, ih, kindOr_append, and_assoc, and_assoc, and_assoc]

theorem Calm.before {next' : TokenKind} (calm : Calm ts next) (quiet : next' ∉ startsOperand) :
    Calm ts next' := by
  induction ts with
  | nil => trivial
  | cons tok ts ih =>
    refine ⟨⟨calm.1.1, fun task => ?_⟩, ih calm.2⟩
    cases ts with
    | nil => exact quiet
    | cons tok' ts => exact calm.1.2 task

theorem Tree.spine_lt (t : Tree) : t.spine < t.tokens.length := by
  induction t with
  | binary op left right leftIh _ =>
    rw [spine, tokens, List.length_append, List.length_cons]
    omega
  | _ => simp [spine, tokens]

theorem precedence_le (kind : TokenKind) :
    precedence kind ≤ 8 ∧ (kind ≠ .pow → precedence kind ≤ 7) := by
  cases kind <;> decide

theorem Tree.le_reach {k : Nat} (le : k ≤ t.level) (low : k ≤ 7) : k ≤ t.reach := by
  cases t with
  | atom tok => exact le
  | group left inner right => exact le
  | pre op inner => exact low
  | binary op left right =>
    rw [reach]
    split
    · exact low
    · exact le

theorem Tree.reach_operand (tight : precedence .pow < t.level) : t.reach = 9 := by
  cases t with
  | atom tok => rfl
  | group left inner right => rfl
  | pre op inner => exact absurd tight (Nat.lt_irrefl _)
  | binary op left right => exact absurd tight (Nat.not_lt.mpr (precedence_le op.kind).1)

theorem operator_other (isOp : precedence op.kind ≠ 0) : startsPostfix (op :: ts) = false := by
  have all : ∀ kind ∈ [TokenKind.question, .dot, .questionDot, .lparen, .lbrack, .lbrace],
      precedence kind = 0 := by decide
  have other {kind : TokenKind} (listed : kind ∈
      [TokenKind.question, .dot, .questionDot, .lparen, .lbrack, .lbrace]) : op.kind ≠ kind := by
    intro same
    exact isOp (same ▸ all kind listed)
  have here : curKind (op :: ts) = op.kind := rfl
  have question := @other .question (by decide)
  have dot := @other .dot (by decide)
  have questionDot := @other .questionDot (by decide)
  have lparen := @other .lparen (by decide)
  have lbrack := @other .lbrack (by decide)
  have lbrace := @other .lbrace (by decide)
  simp [startsPostfix, here, question, dot, questionDot, lparen, lbrack, lbrace]

section Runs

variable {N : Type} {nodes : Nodes N} {others : Others N} {stop : Bool}

theorem climb_stops {n prec : Nat} {left : N} (low : precedence (curKind rest) < prec) :
    climb nodes others stop (n + 1) prec left rest = some (left, rest) := by
  have positive : prec ≠ 0 := by omega
  rw [climb.eq_def]
  simp [low, positive]

theorem climb_ends {n prec : Nat} {left : N} (none : precedence (curKind rest) = 0)
    (other : curKind rest ≠ .question) :
    climb nodes others stop (n + 1) prec left rest = some (left, rest) := by
  rw [climb.eq_def]
  simp [none, other]

theorem climb_joins {n prec : Nat} {left right : N} (reaches : prec ≤ precedence op.kind)
    (isOp : precedence op.kind ≠ 0) (line : stop = true → op.newline = false)
    (operand : curKind ts ≠ .lbrack ∧ curKind ts ≠ .dot)
    (parsed : parseExpr nodes others stop n
      (if op.kind = .pow then precedence op.kind else precedence op.kind + 1) ts =
        some (right, rest)) :
    climb nodes others stop (n + 1) prec left (op :: ts) =
      climb nodes others stop n prec (nodes.binary op left right) rest := by
  have here : curKind (op :: ts) = op.kind := rfl
  have sameLine : (stop && skippedNewline (op :: ts)) = false := by
    cases stop with
    | false => rfl
    | true => exact line rfl
  rw [climb.eq_def]
  simp only [here, sameLine, isOp, Nat.not_lt.mpr reaches, decide_false, Bool.or_false,
    Bool.false_eq_true, if_false]
  by_cases pipe : op.kind = .pipe
  · have noPow : op.kind ≠ .pow := by rw [pipe]; decide
    rw [if_neg noPow] at parsed
    simp [pipe, operand] at parsed ⊢
    simp [parsed]
  · simp [pipe, parsed]

theorem Tree.first_kind (spelled : t.Spelled) (rest : List Tok) :
    ∃ tok ts, t.tokens ++ rest = tok :: ts ∧
      (isAtom tok = true ∨ tok.kind = .lparen ∨ isPrefix tok.kind = true) := by
  induction t generalizing rest with
  | atom tok => exact ⟨tok, rest, rfl, .inl spelled⟩
  | group left inner right => exact ⟨left, _, rfl, .inr (.inl spelled.1)⟩
  | pre op inner => exact ⟨op, _, rfl, .inr (.inr spelled.1)⟩
  | binary op left right leftIh _ =>
    rw [tokens, List.append_assoc]
    exact leftIh spelled.2.1 _

theorem Tree.first_other (spelled : t.Spelled) (rest : List Tok) :
    curKind (t.tokens ++ rest) ≠ .rparen ∧ curKind (t.tokens ++ rest) ≠ .lbrack ∧
      curKind (t.tokens ++ rest) ≠ .dot := by
  obtain ⟨tok, ts, same, begins⟩ := t.first_kind spelled rest
  have all : ∀ kind ∈ [TokenKind.rparen, .lbrack, .dot], kind ≠ .ident ∧ isLiteral kind = false ∧
      kind ≠ .lparen ∧ isPrefix kind = false := by decide
  have other {kind : TokenKind} (listed : kind ∈ [TokenKind.rparen, .lbrack, .dot]) :
      curKind (t.tokens ++ rest) ≠ kind := by
    rw [same]
    show tok.kind ≠ kind
    rintro rfl
    obtain ⟨ident, literal, lparen, noPrefix⟩ := all _ listed
    simp [isAtom, ident, literal, lparen, noPrefix] at begins
  exact ⟨other (by simp), other (by simp), other (by simp)⟩

theorem isAtom_other (atom : isAtom tok = true) :
    isPrefix tok.kind = false ∧ tok.kind ≠ .bitand ∧ tok.kind ≠ .star ∧ tok.kind ≠ .lparen := by
  have all : ∀ kind ∈ [TokenKind.ident, .number, .string, .fstring, .kwTrue, .kwFalse, .kwNil],
      isPrefix kind = false ∧ kind ≠ .bitand ∧ kind ≠ .star ∧ kind ≠ .lparen := by decide
  refine all tok.kind ?_
  simp only [isAtom, isLiteral, Bool.or_eq_true, decide_eq_true_eq] at atom
  simp only [List.mem_cons, List.not_mem_nil, or_false]
  tauto

theorem parseUnary_atom {n : Nat} (atom : isAtom tok = true) (calm : Calm [tok] (curKind rest))
    (behind : startsPostfix rest = false) :
    parseUnary nodes others stop (n + 3) (tok :: rest) =
      some ((Tree.atom tok).fold nodes, rest) := by
  obtain ⟨noPrefix, noBorrow, noDeref, noGroup⟩ := isAtom_other atom
  obtain ⟨⟨noExpand, noTask⟩, -⟩ := calm
  have noOperator : isTaskOperator tok rest = false := by
    cases task : isTask tok with
    | false => simp [isTaskOperator, task]
    | true =>
      have none : curKind rest ∉ startsOperand := noTask task
      simp [isTaskOperator, none]
  have primary : parsePrimary nodes others stop (n + 1) (tok :: rest) =
      some ((Tree.atom tok).fold nodes, rest) := by
    rw [parsePrimary, Tree.fold]
    by_cases ident : tok.kind = .ident
    · rw [if_pos ident, if_pos ident, if_neg (noExpand ident)]
    · have literal : isLiteral tok.kind = true := by simpa [isAtom, ident] using atom
      rw [if_neg ident, if_neg ident, if_pos literal]
  rw [parseUnary]
  simp only [noOperator, noPrefix, noBorrow, noDeref, decide_false, Bool.or_false,
    Bool.false_eq_true, if_false]
  rw [parsePostfix, primary]
  simp [behind]

theorem paren_other (paren : tok.kind = .lparen) :
    tok.kind ≠ .ident ∧ isLiteral tok.kind = false ∧ isPrefix tok.kind = false ∧
      tok.kind ≠ .bitand ∧ tok.kind ≠ .star := by
  rw [paren]
  decide

theorem parseUnary_group {n : Nat} {left right : Tok} {inner : Tree} {value : N}
    (lparen : left.kind = .lparen) (rparen : right.kind = .rparen) (spelled : inner.Spelled)
    (parsed : parseExpr nodes others stop n 0 (inner.tokens ++ right :: rest) =
      some (value, right :: rest))
    (behind : startsPostfix rest = false) :
    parseUnary nodes others stop (n + 3) (left :: (inner.tokens ++ right :: rest)) =
      some (nodes.grouped left value right, rest) := by
  obtain ⟨noIdent, noLiteral, noPrefix, noBorrow, noDeref⟩ := paren_other lparen
  have noOperator : isTaskOperator left (inner.tokens ++ right :: rest) = false := by
    simp [isTaskOperator, isTask, noIdent]
  have noTuple := (inner.first_other spelled (right :: rest)).1
  have primary : parsePrimary nodes others stop (n + 1)
      (left :: (inner.tokens ++ right :: rest)) =
        some (nodes.grouped left value right, rest) := by
    rw [parsePrimary, if_neg noIdent, if_neg (by simp [noLiteral]), if_pos lparen, if_neg noTuple,
      parsed]
    simp [rparen]
  rw [parseUnary]
  simp only [noOperator, noPrefix, noBorrow, noDeref, decide_false, Bool.or_false,
    Bool.false_eq_true, if_false]
  rw [parsePostfix, primary]
  simp [behind]

theorem parseUnary_pre {n : Nat} {value : N} (isPre : isPrefix op.kind = true)
    (parsed : parseExpr nodes others stop n (precedence .pow) ts = some (value, rest)) :
    parseUnary nodes others stop (n + 1) (op :: ts) = some (nodes.unary op value, rest) := by
  have noIdent : op.kind ≠ .ident := by
    intro ident
    rw [ident] at isPre
    exact absurd isPre (by decide)
  have noOperator : isTaskOperator op ts = false := by
    simp [isTaskOperator, isTask, noIdent]
  rw [parseUnary]
  simp [noOperator, isPre, parsed]

/--
The parser reads a tree of the table, and goes on behind it.

That is from any precedence that the tree is bound as tight as, and where no operator that is bound
tighter stands behind it.
-/
theorem parse_shaped (spelled : t.Spelled) (shaped : t.Shaped)
    (line : stop = true → ∀ tok ∈ t.tokens, tok.newline = false)
    (calm : Calm t.tokens (curKind rest)) (behind : startsPostfix rest = false)
    (low : precedence (curKind rest) ≤ t.reach) {prec n : Nat} (tight : prec ≤ t.level)
    (enough : 3 * t.tokens.length ≤ n) :
    parseExpr nodes others stop (n + 1) prec (t.tokens ++ rest) =
      climb nodes others stop (n - t.spine) prec (t.fold nodes) rest := by
  -- The induction is on the tree: the loop is taken up behind its left edge.
  induction t generalizing rest prec n with
  | atom tok =>
    obtain ⟨k, rfl⟩ := Nat.exists_eq_add_of_le' enough
    have parsed := @parseUnary_atom rest tok N nodes others stop k spelled calm behind
    rw [parseExpr]
    show (parseUnary nodes others stop (k + 3) (tok :: rest)).bind _ = _
    rw [parsed]
    rfl
  | group left inner right ih =>
    obtain ⟨lparen, within, rparen⟩ := spelled
    have size : (Tree.group left inner right).tokens.length = inner.tokens.length + 2 := by
      simp [Tree.tokens]
    rw [size] at enough
    obtain ⟨k, rfl⟩ := Nat.exists_eq_add_of_le' (show 4 ≤ n by omega)
    have spine := inner.spine_lt
    have whole : (Tree.group left inner right).tokens ++ rest =
        left :: (inner.tokens ++ right :: rest) := by simp [Tree.tokens]
    have next : curKind (right :: rest) = .rparen := rparen
    have parsed : parseExpr nodes others stop (k + 1) 0 (inner.tokens ++ right :: rest) =
        some (inner.fold nodes, right :: rest) := by
      have calm' : Calm inner.tokens (curKind (right :: rest)) := by
        rw [Tree.tokens, Calm, calm_append] at calm
        exact calm.2.1
      have inside : parseExpr nodes others stop (k + 1) 0 (inner.tokens ++ right :: rest) =
          climb nodes others stop (k - inner.spine) 0 (inner.fold nodes) (right :: rest) :=
        ih within shaped (fun on tok member => line on tok (by simp [Tree.tokens, member])) calm'
          (by simp [startsPostfix, next]) (by rw [next]; exact Nat.zero_le _) (Nat.zero_le _)
          (by omega)
      obtain ⟨m, more⟩ := Nat.exists_eq_add_of_lt (show inner.spine < k by omega)
      have left : k - inner.spine = m + 1 := by omega
      rw [inside, left]
      exact climb_ends (by rw [next]; rfl) (by rw [next]; decide)
    have operand := @parseUnary_group rest N nodes others stop (k + 1) left right inner _ lparen
      rparen within parsed behind
    rw [whole, parseExpr]
    show (parseUnary nodes others stop (k + 1 + 3) _).bind _ = _
    rw [operand]
    rfl
  | pre op inner ih =>
    obtain ⟨isPre, within⟩ := spelled
    obtain ⟨tight', shaped'⟩ := shaped
    have size : (Tree.pre op inner).tokens.length = inner.tokens.length + 1 := by
      simp [Tree.tokens]
    rw [size] at enough
    obtain ⟨k, rfl⟩ := Nat.exists_eq_add_of_le' (show 3 ≤ n by omega)
    have spine := inner.spine_lt
    have eight : precedence .pow = 8 := rfl
    have parsed : parseExpr nodes others stop (k + 2) (precedence .pow) (inner.tokens ++ rest) =
        some (inner.fold nodes, rest) := by
      have inside : parseExpr nodes others stop (k + 2) (precedence .pow) (inner.tokens ++ rest) =
          climb nodes others stop (k + 1 - inner.spine) (precedence .pow) (inner.fold nodes) rest :=
        ih within shaped' (fun on tok member => line on tok (by simp [Tree.tokens, member])) calm.2
          behind (Tree.le_reach (Nat.le_trans low (by rw [Tree.reach]; omega)) low) tight'
          (by omega)
      obtain ⟨m, more⟩ := Nat.exists_eq_add_of_lt (show inner.spine < k + 1 by omega)
      have left : k + 1 - inner.spine = m + 1 := by omega
      rw [inside, left]
      exact climb_stops (Nat.lt_succ_of_le low)
    have operand := @parseUnary_pre (inner.tokens ++ rest) rest op N nodes others stop (k + 2) _
      isPre parsed
    rw [parseExpr]
    show (parseUnary nodes others stop (k + 2 + 1) (op :: (inner.tokens ++ rest))).bind _ = _
    rw [operand]
    rfl
  | binary op left right leftIh rightIh =>
    obtain ⟨isOp, spelledLeft, spelledRight⟩ := spelled
    obtain ⟨sides, shapedLeft, shapedRight⟩ := shaped
    have size : (Tree.binary op left right).tokens.length =
        left.tokens.length + (right.tokens.length + 1) := by simp [Tree.tokens]
    rw [size] at enough
    have spine := left.spine_lt
    have spine' := right.spine_lt
    have whole : (Tree.binary op left right).tokens ++ rest =
        left.tokens ++ op :: (right.tokens ++ rest) := by simp [Tree.tokens]
    -- The precedence that the right side is read at, and what reaches into the sides.
    have bounds : (if op.kind = .pow then precedence op.kind else precedence op.kind + 1) ≤
          right.level ∧
        precedence (curKind rest) <
          (if op.kind = .pow then precedence op.kind else precedence op.kind + 1) ∧
        precedence op.kind ≤ left.level ∧ precedence op.kind ≤ left.reach ∧
        precedence (curKind rest) ≤ right.reach := by
      rw [Tree.reach] at low
      have eight : precedence .pow = 8 := rfl
      by_cases pow : op.kind = .pow
      · rw [if_pos pow] at sides low ⊢
        rw [pow]
        refine ⟨sides.2, by omega, by omega, ?_, Tree.le_reach (by omega) low⟩
        rw [Tree.reach_operand sides.1]
        decide
      · have seven := (precedence_le op.kind).2 pow
        rw [if_neg pow] at sides low ⊢
        exact ⟨sides.2, by omega, sides.1, Tree.le_reach sides.1 seven,
          Tree.le_reach (by omega) (by omega)⟩
    obtain ⟨tightRight, below, tightLeft, reachLeft, reachRight⟩ := bounds
    have calms : Calm left.tokens (curKind (op :: (right.tokens ++ rest))) ∧
        Calm right.tokens (curKind rest) := by
      rw [Tree.tokens, calm_append, Calm] at calm
      exact ⟨calm.1, calm.2.2⟩
    have leftRead : parseExpr nodes others stop (n + 1) prec
          (left.tokens ++ op :: (right.tokens ++ rest)) =
        climb nodes others stop (n - left.spine) prec (left.fold nodes)
          (op :: (right.tokens ++ rest)) :=
      leftIh spelledLeft shapedLeft
        (fun on tok member => line on tok (by simp [Tree.tokens, member])) calms.1
        (operator_other isOp) reachLeft (Nat.le_trans tight tightLeft) (by omega)
    obtain ⟨m, more⟩ := Nat.exists_eq_add_of_le' (show left.spine + 2 ≤ n by omega)
    have steps : n - left.spine = m + 1 + 1 := by omega
    have rightRead : parseExpr nodes others stop (m + 1)
          (if op.kind = .pow then precedence op.kind else precedence op.kind + 1)
          (right.tokens ++ rest) = some (right.fold nodes, rest) := by
      have read := rightIh spelledRight shapedRight
        (fun on tok member => line on tok (by simp [Tree.tokens, member])) calms.2 behind
        reachRight tightRight (show 3 * right.tokens.length ≤ m by omega)
      obtain ⟨l, less⟩ := Nat.exists_eq_add_of_lt (show right.spine < m by omega)
      have left : m - right.spine = l + 1 := by omega
      rw [read, left]
      exact climb_stops below
    have joined := @climb_joins (right.tokens ++ rest) rest op N nodes others stop (m + 1) prec
      (left.fold nodes) (right.fold nodes) tight isOp
      (fun on => line on op (by simp [Tree.tokens])) (right.first_other spelledRight rest).2
      rightRead
    have spent : n - (Tree.binary op left right).spine = m + 1 := by
      rw [Tree.spine]
      omega
    rw [whole, leftRead, steps, joined, spent]
    rfl

end Runs

/-- The parts of a sequence of operands. -/
inductive Part where
  | operand
  | sequence

/-- Operands with prefixes before them, and sequences of operands with operators between them. -/
inductive Phrase : Part → List Tok → Prop
  | atom {tok : Tok} (atom : isAtom tok = true) : Phrase .operand [tok]
  | group {left right : Tok} {ts : List Tok} (lparen : left.kind = .lparen)
    (inner : Phrase .sequence ts) (rparen : right.kind = .rparen) :
    Phrase .operand (left :: (ts ++ [right]))
  | pre {op : Tok} {ts : List Tok} (isPre : isPrefix op.kind = true) (inner : Phrase .operand ts) :
    Phrase .operand (op :: ts)
  | one {ts : List Tok} (operand : Phrase .operand ts) : Phrase .sequence ts
  | join {ts us : List Tok} {op : Tok} (left : Phrase .sequence ts)
    (isOp : precedence op.kind ≠ 0) (right : Phrase .operand us) : Phrase .sequence (ts ++ op :: us)

namespace Tree

/-- Puts an operator and an operand behind a tree, where the operator reaches to. -/
def attach (op : Tok) (operand : Tree) : Tree → Tree
  | atom tok => binary op (atom tok) operand
  | group left inner right => binary op (group left inner right) operand
  | pre op' inner =>
    if op.kind = .pow then pre op' (attach op operand inner)
    else binary op (pre op' inner) operand
  | binary op' left right =>
    if precedence op.kind ≤ (binary op' left right).reach then
      binary op (binary op' left right) operand
    else binary op' left (attach op operand right)

variable {operand : Tree}

theorem tokens_attach : (attach op operand t).tokens = t.tokens ++ op :: operand.tokens := by
  induction t with
  | atom tok => rfl
  | group left inner right => rfl
  | pre op' inner ih =>
    rw [attach]
    split
    · rw [tokens, ih]
      rfl
    · rfl
  | binary op' left right _ ih =>
    rw [attach]
    split
    · rfl
    · rw [tokens, ih, tokens, List.append_assoc, List.cons_append]

theorem spelled_attach (isOp : precedence op.kind ≠ 0) (operandSpelled : operand.Spelled)
    (spelled : t.Spelled) : (attach op operand t).Spelled := by
  induction t with
  | atom tok => exact ⟨isOp, spelled, operandSpelled⟩
  | group left inner right => exact ⟨isOp, spelled, operandSpelled⟩
  | pre op' inner ih =>
    rw [attach]
    split
    · exact ⟨spelled.1, ih spelled.2⟩
    · exact ⟨isOp, spelled, operandSpelled⟩
  | binary op' left right _ ih =>
    rw [attach]
    split
    · exact ⟨isOp, spelled, operandSpelled⟩
    · exact ⟨spelled.1, spelled.2.1, ih spelled.2.2⟩

theorem level_attach : min t.level (precedence op.kind) ≤ (attach op operand t).level := by
  cases t with
  | atom tok => exact Nat.min_le_right _ _
  | group left inner right => exact Nat.min_le_right _ _
  | pre op' inner =>
    rw [attach]
    split
    · exact Nat.min_le_left _ _
    · exact Nat.min_le_right _ _
  | binary op' left right =>
    rw [attach]
    split
    · exact Nat.min_le_right _ _
    · exact Nat.min_le_left _ _

theorem reach_le_level : t.reach ≤ t.level := by
  cases t with
  | atom tok => exact Nat.le_refl _
  | group left inner right => exact Nat.le_refl _
  | pre op' inner => exact Nat.le_succ 7
  | binary op' left right =>
    rw [reach]
    split
    · next pow =>
      rw [level, pow]
      decide
    · exact Nat.le_refl _

theorem shaped_binary (operandShaped : operand.Shaped) (tight : precedence .pow ≤ operand.level)
    (shaped : t.Shaped) (reached : precedence op.kind ≤ t.reach) :
    (binary op t operand).Shaped := by
  refine ⟨?_, shaped, operandShaped⟩
  have eight : precedence .pow = 8 := rfl
  split
  · next pow =>
    rw [pow] at reached
    refine ⟨?_, tight⟩
    cases t with
    | atom tok => exact Nat.lt_succ_self 8
    | group left inner right => exact Nat.lt_succ_self 8
    | pre op' inner => exact absurd reached (show ¬ 8 ≤ 7 by decide)
    | binary op' left right =>
      rw [reach] at reached
      split at reached
      · omega
      · next other =>
        have seven := (precedence_le op'.kind).2 other
        omega
  · next other =>
    have seven := (precedence_le op.kind).2 other
    exact ⟨Nat.le_trans reached reach_le_level, by omega⟩

theorem shaped_attach (operandShaped : operand.Shaped)
    (tight : precedence .pow ≤ operand.level) (shaped : t.Shaped) :
    (attach op operand t).Shaped := by
  have eight : precedence .pow = 8 := rfl
  induction t with
  | atom tok =>
    exact shaped_binary operandShaped tight shaped
      (Nat.le_trans (precedence_le op.kind).1 (Nat.le_succ 8))
  | group left inner right =>
    exact shaped_binary operandShaped tight shaped
      (Nat.le_trans (precedence_le op.kind).1 (Nat.le_succ 8))
  | pre op' inner ih =>
    rw [attach]
    split
    · next pow =>
      -- A power binds tighter than the prefix before it.
      have level := @level_attach op inner operand
      rw [pow] at level
      exact ⟨Nat.le_trans (Nat.le_min.mpr ⟨shaped.1, Nat.le_refl _⟩) level, ih shaped.2⟩
    · next other =>
      exact shaped_binary operandShaped tight shaped ((precedence_le op.kind).2 other)
  | binary op' left right _ ih =>
    rw [attach]
    split
    · next reached => exact shaped_binary operandShaped tight shaped reached
    · next higher =>
      -- The operator binds tighter than the one that the tree ends with.
      obtain ⟨sides, shapedLeft, shapedRight⟩ := shaped
      have level := @level_attach op right operand
      have bound := (precedence_le op.kind).1
      refine ⟨?_, shapedLeft, ih shapedRight⟩
      rw [reach] at higher
      split at sides
      · next pow =>
        rw [if_pos pow] at higher ⊢
        exact ⟨sides.1, Nat.le_trans (Nat.le_min.mpr ⟨sides.2, by omega⟩) level⟩
      · next other =>
        rw [if_neg other] at higher ⊢
        exact ⟨sides.1, Nat.lt_of_lt_of_le (Nat.lt_min.mpr ⟨sides.2, by omega⟩) level⟩

/-- The trees themselves, as what the parser builds. -/
def treeNodes : Nodes Tree where
  ident tok := .atom tok
  literal tok := .atom tok
  expand tok _ := .atom tok
  unary op inner := .pre op inner
  grouped left inner right := .group left inner right
  binary op left right := .binary op left right

theorem fold_treeNodes (t : Tree) : t.fold treeNodes = t := by
  induction t with
  | atom tok =>
    rw [fold]
    split <;> rfl
  | group left inner right ih =>
    rw [fold, ih]
    rfl
  | pre op inner ih =>
    rw [fold, ih]
    rfl
  | binary op left right leftIh rightIh =>
    rw [fold, leftIh, rightIh]
    rfl

theorem unique {t t' : Tree} (spelled : t.Spelled) (shaped : t.Shaped) (spelled' : t'.Spelled)
    (shaped' : t'.Shaped) (calm : Calm t.tokens .eof) (same : t.tokens = t'.tokens) : t = t' := by
  -- The parser reads both of them off the one text.
  let others : Others Tree := ⟨fun _ => none, fun _ _ => none, fun _ => none, fun _ _ => none,
    fun _ _ => none, fun _ => none⟩
  have read {t : Tree} (spelled : t.Spelled) (shaped : t.Shaped) (calm : Calm t.tokens .eof) :
      parseExpr treeNodes others false (3 * t.tokens.length + 1) 0 t.tokens = some (t, []) := by
    have parsed := @parse_shaped [] t Tree treeNodes others false spelled shaped
      (fun on => nomatch on) calm rfl (Nat.zero_le _) 0 (3 * t.tokens.length) (Nat.zero_le _) (Nat.le_refl _)
    have spine := t.spine_lt
    obtain ⟨m, more⟩ := Nat.exists_eq_add_of_lt (show t.spine < 3 * t.tokens.length by omega)
    have left : 3 * t.tokens.length - t.spine = m + 1 := by omega
    rw [List.append_nil] at parsed
    rw [parsed, left, climb_ends rfl (by decide), fold_treeNodes]
  have first := read spelled shaped calm
  have second := read spelled' shaped' (same ▸ calm)
  rw [← same, first] at second
  simpa using second

theorem exists_of_phrase {part : Part} (phrase : Phrase part ts) :
    ∃ t : Tree, t.Spelled ∧ t.Shaped ∧ t.tokens = ts ∧
      (part = .operand → precedence .pow ≤ t.level) := by
  induction phrase with
  | @atom tok atom => exact ⟨.atom tok, atom, trivial, rfl, fun _ => Nat.le_succ 8⟩
  | @group left right ts lparen _ rparen ih =>
    obtain ⟨t, spelled, shaped, rfl, -⟩ := ih
    exact ⟨.group left t right, ⟨lparen, spelled, rparen⟩, shaped, rfl, fun _ => Nat.le_succ 8⟩
  | @pre op ts isPre _ ih =>
    obtain ⟨t, spelled, shaped, rfl, tight⟩ := ih
    exact ⟨.pre op t, ⟨isPre, spelled⟩, ⟨tight rfl, shaped⟩, rfl, fun _ => Nat.le_refl _⟩
  | one _ ih =>
    obtain ⟨t, spelled, shaped, tokens, -⟩ := ih
    exact ⟨t, spelled, shaped, tokens, nofun⟩
  | @join ts us op _ isOp _ leftIh rightIh =>
    obtain ⟨t, spelled, shaped, rfl, -⟩ := leftIh
    obtain ⟨operand, spelled', shaped', rfl, tight⟩ := rightIh
    exact ⟨attach op operand t, spelled_attach isOp spelled' spelled,
      shaped_attach shaped' (tight rfl) shaped, tokens_attach, nofun⟩

/-- The parentheses that are written around an expression. -/
def lparen : Tok := ⟨.lparen, nm "(", false⟩

/-- The parentheses that are written around an expression. -/
def rparen : Tok := ⟨.rparen, nm ")", false⟩

/-- A tree with all its parentheses. -/
def full : Tree → Tree
  | atom tok => atom tok
  | group left inner right => group left inner.full right
  | pre op inner => group lparen (pre op inner.full) rparen
  | binary op left right => group lparen (binary op left.full right.full) rparen

theorem full_spec (spelled : t.Spelled) : t.full.Spelled ∧ t.full.Shaped ∧ t.full.level = 9 := by
  induction t with
  | atom tok => exact ⟨spelled, trivial, rfl⟩
  | group left inner right ih =>
    obtain ⟨spelled', shaped, -⟩ := ih spelled.2.1
    exact ⟨⟨spelled.1, spelled', spelled.2.2⟩, shaped, rfl⟩
  | pre op inner ih =>
    obtain ⟨spelled', shaped, level⟩ := ih spelled.2
    exact ⟨⟨rfl, ⟨spelled.1, spelled'⟩, rfl⟩, ⟨by rw [level]; decide, shaped⟩, rfl⟩
  | binary op left right leftIh rightIh =>
    obtain ⟨spelledLeft, shapedLeft, levelLeft⟩ := leftIh spelled.2.1
    obtain ⟨spelledRight, shapedRight, levelRight⟩ := rightIh spelled.2.2
    have bound := (precedence_le op.kind).1
    refine ⟨⟨rfl, ⟨spelled.1, spelledLeft, spelledRight⟩, rfl⟩, ⟨?_, shapedLeft, shapedRight⟩, rfl⟩
    rw [levelLeft, levelRight]
    split
    · decide
    · omega

theorem fold_full (t : Tree) : t.full.fold exprNodes = t.fold exprNodes := by
  induction t with
  | atom tok => rfl
  | group left inner right ih => exact ih
  | pre op inner ih => exact congrArg (exprNodes.unary op) ih
  | binary op left right leftIh rightIh =>
    show exprNodes.binary op (left.full.fold exprNodes) (right.full.fold exprNodes) = _
    rw [leftIh, rightIh]
    rfl

theorem calm_full (spelled : t.Spelled) (calm : Calm t.tokens next) :
    Calm t.full.tokens next ∧ Calm t.full.tokens .rparen := by
  have paren {tok : Tok} {next : TokenKind} (other : tok.kind ≠ .ident) : Calm [tok] next :=
    ⟨⟨fun ident => absurd ident other, fun task => by simp [isTask, other] at task⟩, trivial⟩
  -- Within parentheses nothing depends on what stands behind them.
  have grouped {left right : Tok} {ts : List Tok} {next : TokenKind} (isLeft : left.kind = .lparen)
      (isRight : right.kind = .rparen) (calm : Calm ts .rparen) :
      Calm (left :: (ts ++ [right])) next := by
    rw [← List.singleton_append, calm_append, calm_append]
    refine ⟨paren (by rw [isLeft]; decide), ?_, paren (by rw [isRight]; decide)⟩
    show Calm ts right.kind
    rwa [isRight]
  induction t generalizing next with
  | atom tok => exact ⟨calm, Calm.before calm (by decide)⟩
  | group left inner right ih =>
    rw [tokens, ← List.singleton_append, calm_append, calm_append] at calm
    have inside : Calm inner.tokens right.kind := calm.2.1
    have full := (ih spelled.2.1 inside).2
    exact ⟨grouped spelled.1 spelled.2.2 full, grouped spelled.1 spelled.2.2 full⟩
  | pre op inner ih =>
    rw [tokens, ← List.singleton_append, calm_append] at calm
    have full := (ih spelled.2 calm.2).2
    have other : op.kind ≠ .ident := by
      intro ident
      have isPre := spelled.1
      rw [ident] at isPre
      exact absurd isPre (by decide)
    have whole : Calm (op :: inner.full.tokens) .rparen := by
      rw [← List.singleton_append, calm_append]
      exact ⟨paren other, full⟩
    exact ⟨grouped rfl rfl whole, grouped rfl rfl whole⟩
  | binary op left right leftIh rightIh =>
    rw [tokens, calm_append, Calm] at calm
    have leftFull := (leftIh spelled.2.1 calm.1).1
    have rightFull := (rightIh spelled.2.2 calm.2.2).2
    have other : op.kind ≠ .ident := by
      intro ident
      exact spelled.1 (by rw [ident]; rfl)
    have whole : Calm (left.full.tokens ++ op :: right.full.tokens) .rparen := by
      rw [calm_append, ← List.singleton_append, calm_append]
      exact ⟨leftFull, paren other, rightFull⟩
    exact ⟨grouped rfl rfl whole, grouped rfl rfl whole⟩

theorem line_full (line : ∀ tok ∈ t.tokens, tok.newline = false) :
    ∀ tok ∈ t.full.tokens, tok.newline = false := by
  induction t with
  | atom tok => exact line
  | group left inner right ih =>
    simp only [tokens, full, List.mem_cons, List.mem_append, List.not_mem_nil, or_false] at line ⊢
    grind
  | pre op inner ih =>
    simp only [tokens, full, List.mem_cons, List.mem_append, List.not_mem_nil, or_false] at line ⊢
    grind [lparen, rparen]
  | binary op left right leftIh rightIh =>
    simp only [tokens, full, List.mem_cons, List.mem_append, List.not_mem_nil, or_false] at line ⊢
    grind [lparen, rparen]

end Tree

/-- What stands behind an expression neither is an operator nor goes on with it. -/
def Ends (rest : List Tok) : Prop := precedence (curKind rest) = 0 ∧ startsPostfix rest = false

theorem Tree.parsed {N : Type} {nodes : Nodes N} {others : Others N} {stop : Bool}
    (spelled : t.Spelled) (shaped : t.Shaped)
    (line : stop = true → ∀ tok ∈ t.tokens, tok.newline = false)
    (calm : Calm t.tokens (curKind rest)) (ends : Ends rest) {n : Nat}
    (enough : 3 * t.tokens.length < n) :
    parseExpr nodes others stop n 0 (t.tokens ++ rest) = some (t.fold nodes, rest) := by
  obtain ⟨k, rfl⟩ := Nat.exists_eq_add_of_le' (show 1 ≤ n by omega)
  have spine := t.spine_lt
  have low : precedence (curKind rest) ≤ t.reach := by
    rw [ends.1]
    exact Nat.zero_le _
  have other : curKind rest ≠ .question := by
    intro question
    have behind := ends.2
    simp [startsPostfix, question] at behind
  rw [parse_shaped spelled shaped line calm ends.2 low (Nat.zero_le _) (by omega)]
  obtain ⟨m, more⟩ := Nat.exists_eq_add_of_lt (show t.spine < k by omega)
  have left : k - t.spine = m + 1 := by omega
  rw [left, climb_ends ends.1 other]

/--
The parser builds the one tree that the table of precedences gives a sequence of operands.

That is also so for the tree with all its parentheses. No name may be an operator, by what stands
behind it, and lines do not matter.
-/
theorem parse_sequence (others : Others Expr) {stop : Bool} (sequence : Phrase .sequence ts)
    (calm : Calm ts (curKind rest)) (line : stop = true → ∀ tok ∈ ts, tok.newline = false)
    (ends : Ends rest) :
    ∃ t : Tree, (t.Spelled ∧ t.Shaped ∧ t.tokens = ts) ∧
      (∀ t' : Tree, t'.Spelled ∧ t'.Shaped ∧ t'.tokens = ts → t' = t) ∧
      (∀ n, 3 * ts.length < n →
        parseExpr exprNodes others stop n 0 (ts ++ rest) = some (t.fold exprNodes, rest)) ∧
      ∀ n, 3 * t.full.tokens.length < n →
        parseExpr exprNodes others stop n 0 (t.full.tokens ++ rest) =
          some (t.fold exprNodes, rest) := by
  obtain ⟨t, spelled, shaped, rfl, -⟩ := Tree.exists_of_phrase sequence
  obtain ⟨spelled', shaped', -⟩ := Tree.full_spec spelled
  refine ⟨t, ⟨spelled, shaped, rfl⟩, ?_, fun n => Tree.parsed spelled shaped line calm ends, ?_⟩
  · rintro t' ⟨spelledOther, shapedOther, same⟩
    refine Tree.unique spelledOther shapedOther spelled shaped ?_ same
    exact Calm.before (same ▸ calm) (by decide)
  · intro n enough
    have parsed := @Tree.parsed rest t.full Expr exprNodes others stop spelled' shaped'
      (fun on => Tree.line_full (line on)) (Tree.calm_full spelled calm).1 ends n enough
    rw [parsed, Tree.fold_full]

/-- A parser without other expressions. -/
def noOthers : Others Expr :=
  ⟨fun _ => none, fun _ _ => none, fun _ => none, fun _ _ => none, fun _ _ => none, fun _ => none⟩

/-- The tokens of a sum of two names. -/
def sumTokens : List Tok :=
  [⟨.ident, nm "a", false⟩, ⟨.plus, nm "+", false⟩, ⟨.ident, nm "b", false⟩]

/-- A sum of two names is parsed as its tree. -/
theorem parse_sequence_sum :
    Phrase .sequence sumTokens ∧
    ∃ t : Tree, t.tokens = sumTokens ∧
      parseExpr exprNodes noOthers false 10 0 (sumTokens ++ []) =
        some (t.fold exprNodes, []) := by
  have phrase : Phrase .sequence sumTokens :=
    .join (.one (.atom rfl)) (show precedence .plus ≠ 0 by decide) (.atom rfl)
  have calm : Calm sumTokens (curKind []) :=
    ⟨⟨fun _ => by decide, fun task => absurd task (by decide)⟩,
      ⟨fun _ => by decide, fun task => absurd task (by decide)⟩,
      ⟨fun _ => by decide, fun task => absurd task (by decide)⟩, trivial⟩
  obtain ⟨t, ⟨-, -, tokens⟩, -, parsed, -⟩ :=
    @parse_sequence sumTokens [] noOthers false phrase calm (fun on => nomatch on) ⟨rfl, rfl⟩
  exact ⟨phrase, t, tokens, parsed 10 (by decide)⟩

/-- The tokens of a difference whose left side is a word of tasks. -/
def awaitTokens : List Tok :=
  [⟨.ident, nm "await", false⟩, ⟨.minus, nm "-", false⟩, ⟨.ident, nm "b", false⟩]

/-- A word of tasks before a minus is parsed as an operator, and not as the table says. -/
theorem await_not_table :
    Phrase .sequence awaitTokens ∧
    ∃ t : Tree, t.Spelled ∧ t.Shaped ∧ t.tokens = awaitTokens ∧
      parseExpr exprNodes noOthers false 10 0 awaitTokens =
        some (.unary (nm "await") (.unary (nm "-") (.ident (nm "b"))), []) ∧
      t.fold exprNodes ≠ .unary (nm "await") (.unary (nm "-") (.ident (nm "b"))) := by
  refine ⟨.join (.one (.atom rfl)) (show precedence .minus ≠ 0 by decide) (.atom rfl),
    .binary ⟨.minus, nm "-", false⟩ (.atom ⟨.ident, nm "await", false⟩)
      (.atom ⟨.ident, nm "b", false⟩), ?_, ?_, rfl, rfl, ?_⟩
  · exact ⟨show precedence .minus ≠ 0 by decide, rfl, rfl⟩
  · exact ⟨⟨by decide, by decide⟩, trivial, trivial⟩
  · exact Expr.noConfusion

end Nytrix.Parse.Climb
