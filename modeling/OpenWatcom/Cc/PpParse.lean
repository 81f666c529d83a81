import OpenWatcom.Cc.PpSyntax
import Mathlib.Tactic.NormNum

/-!
# The shift and reduce loop reads a well-formed expression

* `Expr.ppValue`   the operand that the reductions make of an expression;
* `Fits`, `Follows`   which operator may stand on the stack before an expression, and which token
  may follow it;
* `parse_steps`    from its first token the loop leads to its operand on the stack, everything below
  untouched;
* `precedenceParse_tokens`   `PrecedenceParse` ends with that operand and reports no error.
-/

namespace PpExpn
open I64

/-! ## the operand of an expression -/

/-- the function that reduces a binary operator -/
def BinOp.apply (op : BinOp) : Token → PpValue → PpValue → PpValue :=
  match op with
  | .orOr => logicalOr
  | .andAnd => logicalAnd
  | .or => bitOr
  | .xor => bitXor
  | .and => bitAnd
  | .eq => equality
  | .ne => equality
  | .lt => relational
  | .le => relational
  | .gt => relational
  | .ge => relational
  | .lshift => shift
  | .rshift => shift
  | .plus => additive
  | .minus => additive
  | .times => multiplicative
  | .div => multiplicative
  | .percent => multiplicative

/-- the token of a unary operator on the operator stack -/
def UnOp.stacked : UnOp → Token
  | .plus => .unaryPlus
  | .minus => .unaryMinus
  | .lnot => .exclamation
  | .tilde => .tilde

/-- what the reductions make of an expression -/
def Expr.ppValue : Expr → PpValue
  | .const value type => ⟨value, type.isUnsigned⟩
  | .paren e => e.ppValue
  | .unary op e => PpExpn.unary op.stacked e.ppValue
  | .binary op a b => op.apply op.token a.ppValue b.ppValue
  | .cond c a b =>
    ⟨if u64IsntZero c.ppValue.u then a.ppValue.u else b.ppValue.u,
      a.ppValue.noSign || b.ppValue.noSign⟩

/-! ## reading tokens -/

/-- a sign in the place of an operand is a unary operator -/
def opens : Token → Token
  | .plus => .unaryPlus
  | .minus => .unaryMinus
  | t => t

/-- the parser at the first of the tokens `l`, behind an operand -/
def Pp.at (s : Pp) (l : List Token) : Pp := { s with cur := l.headD .null, input := l.tail }

/-- the parser at the first of the tokens `l`, in the place of an operand -/
def Pp.opening (s : Pp) (l : List Token) : Pp :=
  { s with cur := opens (l.headD .null), input := l.tail }

theorem nextToken_eq (s : Pp) : nextToken s = s.at s.input := by
  rw [nextToken]
  cases h : s.input with
  | nil => simp [Pp.at]
  | cons t l => rfl

theorem checkToken_opens {prev : Token} (s : Pp) (hp : prev.isOperand = false)
    (hr : prev ≠ .rightParen) : checkToken prev s = (false, { s with cur := opens s.cur }) := by
  rw [checkToken, if_neg (by simp [hp])]
  by_cases h : s.cur = .plus ∨ s.cur = .minus
  · rw [if_pos ⟨h, hr, Or.inl hp⟩]
    rcases h with h | h
    · rw [h]
      rfl
    · rw [h]
      rfl
  · rw [if_neg fun hc => h hc.1]
    have ho : opens s.cur = s.cur := by
      cases hc : s.cur <;> first | rfl | exact absurd hc (fun e => h (by simp [e]))
    rw [ho]

/-- behind an operator an operand is expected -/
theorem ppNextToken_operator (s : Pp) (hp : s.cur.isOperand = false) (hr : s.cur ≠ .rightParen) :
    ppNextToken s = (false, { s with pos := s.pos + 1 }.opening s.input) := by
  rw [ppNextToken, nextToken_eq, checkToken_opens _ hp hr]
  rfl

/-- behind an operand or a closing parenthesis an operator is expected -/
theorem ppNextToken_operand (s : Pp)
    (hp : s.cur = .rightParen ∨ (s.cur.isOperand = true ∧ (s.input.headD .null).isOperand = false)) :
    ppNextToken s = (false, { s with pos := s.pos + 1 }.at s.input) := by
  rw [ppNextToken, nextToken_eq, checkToken]
  rcases hp with h | ⟨h1, h2⟩
  · rw [if_neg (by simp [h, Token.isOperand]), if_neg (by simp [h])]
    rfl
  · have hns : s.cur ≠ .start := fun e => by simp [e, Token.isOperand] at h1
    have h2' : (s.at s.input).cur.isOperand = false := h2
    rw [if_neg (fun hc => by simp [h2'] at hc), if_neg (fun hc => by simp [h1, hns] at hc)]
    rfl

/-! ## steps of the loop -/

/-- `k` rounds of the loop lead from `s` to `s'` -/
def Steps (k : Nat) (s s' : Pp) : Prop := ∀ n, loop (n + k) s = loop n s'

theorem Steps.refl (s : Pp) : Steps 0 s s := fun _ => rfl

theorem Steps.trans {j k : Nat} {s t u : Pp} (h1 : Steps j s t) (h2 : Steps k t u) :
    Steps (k + j) s u := by
  intro n
  rw [← Nat.add_assoc, h1, h2]

theorem Steps.one {s t : Pp} (h : loopStep s = some (false, t)) : Steps 1 s t := by
  intro n
  rw [loop, h]

/-! ## what stands around an expression -/

/-- the operator below an expression waits for it: it binds less tightly, or the expression is a
primary or a unary one -/
def Fits (top : Operator) (level : Int) : Prop :=
  top.prec ≤ 15 ∧ (top.prec < level ∨ top.prec ≤ 4 ∨ 15 ≤ level) ∧
    (top.prec = 4 → top.token = .question)

/-- the token behind an expression reduces all of it -/
def Follows (next : Token) (level : Int) : Prop :=
  next.isOperand = false ∧ next ≠ .leftParen ∧
    ∃ n, next.prec = some n ∧ n ≤ level ∧ n ≤ 14 ∧ (level = 4 → n ≤ 3)

theorem BinOp.level_range (op : BinOp) : 5 ≤ op.level ∧ op.level ≤ 14 := by
  cases op <;> decide

theorem Expr.level_ge (e : Expr) : 4 ≤ e.level := by
  cases e with
  | const => show (4 : Int) ≤ 16; omega
  | paren => show (4 : Int) ≤ 16; omega
  | unary => show (4 : Int) ≤ 15; omega
  | binary op => have h := op.level_range; show 4 ≤ op.level; omega
  | cond => show (4 : Int) ≤ 4; omega

theorem BinOp.token_prec (op : BinOp) : op.token.prec = some op.level := by
  cases op <;> rfl

theorem BinOp.token_follows (op : BinOp) : op.token.isOperand = false ∧ op.token ≠ .leftParen ∧
    op.token ≠ .rightParen := by
  cases op <;> decide

theorem cExpr_level (op : BinOp) : cExpr op.level = reduceBinary op.apply := by
  cases op <;> rfl

theorem cExpr_leftParen : cExpr 2 = cLeftParen := rfl
theorem cExpr_colon : cExpr 3 = cConditional := rfl
theorem cExpr_question : cExpr 4 = cConditional := rfl
theorem cExpr_unary : cExpr 15 = cUnary := rfl

theorem UnOp.token_opens (op : UnOp) : opens op.token = op.stacked := by
  cases op <;> rfl

theorem UnOp.stacked_prec (op : UnOp) : op.stacked.prec = some 15 := by
  cases op <;> rfl

theorem UnOp.stacked_token (op : UnOp) : op.stacked.isOperand = false ∧ op.stacked ≠ .leftParen ∧
    op.stacked ≠ .rightParen := by
  cases op <;> decide

/-! ## one round -/

section
variable {s : Pp} {t : Operator} {o : List Operator} {n : Int}

/-- the operator on the stack is reduced before a token that binds no more tightly -/
theorem loopStep_reduce (ho : s.operators = t :: o) (hp : s.cur.isOperand = false)
    (hl : s.cur ≠ .leftParen) (hn : s.cur.prec = some n) (hle : n ≤ t.prec) (h15 : n ≠ 15) :
    loopStep s = cExpr t.prec s := by
  rw [loopStep, hp, if_neg (by simp), if_neg hl, ho, hn]
  dsimp only
  rw [if_pos]
  rcases lt_or_eq_of_le hle with h | h
  · exact Or.inl h
  · exact Or.inr ⟨h, h15⟩

/-- a token that binds more tightly is shifted -/
theorem loopStep_shift (ho : s.operators = t :: o) (hp : s.cur.isOperand = false)
    (hl : s.cur ≠ .leftParen) (hr : s.cur ≠ .rightParen) (hn : s.cur.prec = some n)
    (hlt : t.prec < n ∨ (n = 15 ∧ t.prec ≤ 15)) :
    loopStep s = some (false,
      { s with pos := s.pos + 1, operators := ⟨s.cur, s.pos, n⟩ :: s.operators }.opening s.input) := by
  rw [loopStep, hp, if_neg (by simp), if_neg hl]
  rw [ho, hn]
  dsimp only
  have hk := ppNextToken_operator (pushCurToken s n) hp hr
  rw [if_neg (by omega), hk, ← ho]
  rfl

end

/-- the parser with other stacks -/
def Pp.stacks (s : Pp) (pos : Nat) (es : List (PpValue × Nat)) (ops : List Operator) : Pp :=
  { s with pos := pos, operands := es, operators := ops }

/-! ## an expression -/

/-- the parser behind the expression `e`: its operand is on the stack -/
def Pp.behind (s : Pp) (e : Expr) (p : Nat) (after : List Token) : Pp :=
  { s with pos := s.pos + e.tokens.length, operands := (e.ppValue, p) :: s.operands }.at after

/-- the loop reads the expression `e` -/
def Reads (e : Expr) : Prop :=
  ∀ (s : Pp) (top : Operator) (ops : List Operator) (after : List Token),
    s.operators = top :: ops → Fits top e.level → Follows (after.headD .null) e.level →
    ∃ p k, s.pos ≤ p ∧ p < s.pos + e.tokens.length ∧ k ≤ 2 * e.tokens.length ∧
      Steps k (s.opening (e.tokens ++ after)) (s.behind e p after)

theorem reads_const {v : U64} {type : ConstType} (h : type.isFloating = false) :
    Reads (.const v type) := by
  intro s top ops after ho _ hf
  refine ⟨s.pos, 1, Nat.le_refl _, Nat.lt_succ_self _, Nat.le_succ 1, Steps.one ?_⟩
  have hstep : loopStep (s.opening (Expr.tokens (.const v type) ++ after))
      = some (cOperand (s.opening (.constant v type :: after))) := rfl
  have hop : cOperand (s.opening (.constant v type :: after))
      = ppNextToken (pushOperand (s.opening (.constant v type :: after))
          ⟨v, type.isUnsigned⟩ s.pos) := by
    show (if type.isFloating then _ else _) = _
    rw [h]
    rfl
  rw [hstep, hop, ppNextToken_operand _ (Or.inr ⟨rfl, hf.1⟩)]
  rfl

theorem follows_rightParen (level : Int) (h : 4 ≤ level) : Follows .rightParen level :=
  ⟨rfl, by decide, 1, rfl, by omega, by omega, fun _ => by omega⟩

theorem reads_paren {e : Expr} (ih : Reads e) : Reads (.paren e) := by
  intro s top ops after ho _ hf
  have hlen : (Expr.tokens (.paren e)).length = e.tokens.length + 2 := by
    show (Token.leftParen :: (e.tokens ++ [Token.rightParen])).length = _
    rw [List.length_cons, List.length_append]
    rfl
  obtain ⟨p, k, hp1, hp2, hk, hs⟩ := ih
    { s with pos := s.pos + 1, operators := ⟨.leftParen, s.pos, 2⟩ :: s.operators }
    ⟨.leftParen, s.pos, 2⟩ s.operators (.rightParen :: after) rfl
    ⟨by show (2 : Int) ≤ 15; omega, Or.inr (Or.inl (by show (2 : Int) ≤ 4; omega)),
      fun h => absurd h (by show ¬ (2 : Int) = 4; omega)⟩
    (follows_rightParen _ e.level_ge)
  change s.pos + 1 ≤ p at hp1
  change p < s.pos + 1 + e.tokens.length at hp2
  have hopen : Steps 1 (s.opening (Expr.tokens (.paren e) ++ after))
      (({ s with pos := s.pos + 1, operators := ⟨.leftParen, s.pos, 2⟩ :: s.operators } : Pp).opening
        (e.tokens ++ .rightParen :: after)) := by
    apply Steps.one
    have ht : Expr.tokens (.paren e) ++ after
        = .leftParen :: (e.tokens ++ .rightParen :: after) := by
      show (Token.leftParen :: (e.tokens ++ [Token.rightParen])) ++ after = _
      rw [List.cons_append, List.append_assoc, List.singleton_append]
    rw [ht]
    have hn := ppNextToken_operator
      (pushCurToken (s.opening (.leftParen :: (e.tokens ++ .rightParen :: after))) 2) rfl
      (by show Token.leftParen ≠ .rightParen; decide)
    show some (ppNextToken _) = _
    rw [hn]
    rfl
  refine ⟨p, 1 + (k + 1), by omega, by omega, by omega, (hopen.trans hs).trans (Steps.one ?_)⟩
  rw [loopStep_reduce (t := ⟨.leftParen, s.pos, 2⟩) (o := s.operators) (n := 1) rfl rfl
    (by show Token.rightParen ≠ .leftParen; decide) rfl (by show (1 : Int) ≤ 2; omega) (by omega)]
  show cExpr 2 _ = _
  rw [cExpr_leftParen]
  show (if p < s.pos + 1 + e.tokens.length ∧ p > s.pos then some (ppNextToken _) else _) = _
  rw [if_pos ⟨hp2, by omega⟩, ppNextToken_operand _ (Or.inl rfl)]
  have hpos : s.pos + 1 + e.tokens.length + 1 = s.pos + (Expr.tokens (.paren e)).length := by omega
  show some (false, ({ s with pos := s.pos + 1 + e.tokens.length + 1, operands := _ } : Pp).at after) = _
  rw [hpos]
  rfl

theorem reads_unary {op : UnOp} {e : Expr} (h15 : 15 ≤ e.level) (ih : Reads e) :
    Reads (.unary op e) := by
  intro s top ops after ho hfit hf
  obtain ⟨f1, f2, n, hn, hn1, hn2, hn3⟩ := hf
  have hlen : (Expr.tokens (.unary op e)).length = e.tokens.length + 1 := rfl
  obtain ⟨hu1, hu2, hu3⟩ := op.stacked_token
  have hlevel : (Expr.unary op e).level = 15 := rfl
  obtain ⟨p, k, hp1, hp2, hk, hs⟩ := ih
    { s with pos := s.pos + 1, operators := ⟨op.stacked, s.pos, 15⟩ :: s.operators }
    ⟨op.stacked, s.pos, 15⟩ s.operators after rfl
    ⟨le_refl _, Or.inr (Or.inr h15), fun h => absurd h (by show ¬ (15 : Int) = 4; omega)⟩
    ⟨f1, f2, n, hn, by omega, hn2, fun h => by omega⟩
  change s.pos + 1 ≤ p at hp1
  change p < s.pos + 1 + e.tokens.length at hp2
  have hcur : (s.opening (Expr.tokens (.unary op e) ++ after)).cur = op.stacked := op.token_opens
  have hopen := loopStep_shift (s := s.opening (Expr.tokens (.unary op e) ++ after)) (t := top)
    (o := ops) (n := 15) ho (by rw [hcur]; exact hu1) (by rw [hcur]; exact hu2)
    (by rw [hcur]; exact hu3) (by rw [hcur]; exact op.stacked_prec) (Or.inr ⟨rfl, hfit.1⟩)
  rw [hcur] at hopen
  refine ⟨s.pos, 1 + (k + 1), Nat.le_refl _, by omega, by omega,
    ((Steps.one hopen).trans hs).trans (Steps.one ?_)⟩
  rw [loopStep_reduce (t := ⟨op.stacked, s.pos, 15⟩) (o := s.operators) (n := n) rfl f1 f2 hn
    (by show n ≤ 15; omega) (by omega)]
  show cExpr 15 _ = _
  rw [cExpr_unary]
  show (if s.pos < p then _ else _) = _
  rw [if_pos (by omega)]
  have hpos : s.pos + 1 + e.tokens.length = s.pos + (Expr.tokens (.unary op e)).length := by omega
  show some (false, ({ s with pos := s.pos + 1 + e.tokens.length, operands := _ } : Pp).at after) = _
  rw [hpos]
  rfl

theorem reads_binary {op : BinOp} {a b : Expr} (ha : op.level ≤ a.level) (hb : op.level < b.level)
    (iha : Reads a) (ihb : Reads b) : Reads (.binary op a b) := by
  intro s top ops after ho hfit hf
  obtain ⟨f1, f2, n, hn, hn1, hn2, hn3⟩ := hf
  obtain ⟨t1, t2, t3⟩ := hfit
  obtain ⟨l1, l2⟩ := op.level_range
  obtain ⟨b1, b2, b3⟩ := op.token_follows
  change n ≤ op.level at hn1
  change top.prec < op.level ∨ _ ∨ 15 ≤ op.level at t2
  have htop : top.prec < op.level := by omega
  have hlen : (Expr.tokens (.binary op a b)).length = a.tokens.length + b.tokens.length + 1 := by
    show (a.tokens ++ op.token :: b.tokens).length = _
    rw [List.length_append, List.length_cons]
    omega
  have ht : Expr.tokens (.binary op a b) ++ after = a.tokens ++ op.token :: (b.tokens ++ after) := by
    show (a.tokens ++ op.token :: b.tokens) ++ after = _
    rw [List.append_assoc, List.cons_append]
  -- the left operand
  obtain ⟨p1, k1, hp1, hp1', hk1, hs1⟩ := iha s top ops (op.token :: (b.tokens ++ after)) ho
    ⟨t1, Or.inl (by omega), t3⟩
    ⟨b1, b2, op.level, op.token_prec, ha, l2, fun h => by omega⟩
  -- the operator is shifted
  have hshift := loopStep_shift (s := s.behind a p1 (op.token :: (b.tokens ++ after))) (t := top)
    (o := ops) (n := op.level) ho b1 b2 b3 op.token_prec (Or.inl htop)
  -- the right operand
  obtain ⟨p2, k2, hp2, hp2', hk2, hs2⟩ := ihb
    (s.stacks (s.pos + a.tokens.length + 1) ((a.ppValue, p1) :: s.operands)
      (⟨op.token, s.pos + a.tokens.length, op.level⟩ :: s.operators))
    ⟨op.token, s.pos + a.tokens.length, op.level⟩ s.operators after rfl
    ⟨by show op.level ≤ 15; omega, Or.inl hb, fun h => absurd h (by show ¬ op.level = 4; omega)⟩
    ⟨f1, f2, n, hn, by omega, hn2, fun h => by omega⟩
  change s.pos + a.tokens.length + 1 ≤ p2 at hp2
  change p2 < s.pos + a.tokens.length + 1 + b.tokens.length at hp2'
  rw [ht]
  refine ⟨s.pos + a.tokens.length, 1 + (k2 + (1 + k1)), by omega, by omega, by omega,
    ((hs1.trans (Steps.one hshift)).trans hs2).trans (Steps.one ?_)⟩
  rw [loopStep_reduce (t := ⟨op.token, s.pos + a.tokens.length, op.level⟩) (o := s.operators)
    (n := n) rfl f1 f2 hn (by show n ≤ op.level; omega) (by omega)]
  show cExpr op.level _ = _
  rw [cExpr_level]
  have hbin : binary ((s.stacks (s.pos + a.tokens.length + 1) ((a.ppValue, p1) :: s.operands)
        (⟨op.token, s.pos + a.tokens.length, op.level⟩ :: s.operators)).behind b p2 after)
      = some (some (op.token, a.ppValue, b.ppValue, s.pos + a.tokens.length),
          ({ s with pos := s.pos + a.tokens.length + 1 + b.tokens.length } : Pp).at after) := by
    show (if p2 > s.pos + a.tokens.length then (if p1 < s.pos + a.tokens.length then _ else _)
      else _) = _
    rw [if_pos (by omega), if_pos (by omega)]
    rfl
  rw [reduceBinary, hbin]
  have hpos : s.pos + a.tokens.length + 1 + b.tokens.length
      = s.pos + (Expr.tokens (.binary op a b)).length := by omega
  rw [hpos]
  rfl

theorem follows_question {level : Int} (h : 5 ≤ level) : Follows .question level :=
  ⟨rfl, by decide, 4, rfl, by omega, by omega, fun _ => by omega⟩

theorem follows_colon {level : Int} (h : 4 ≤ level) : Follows .colon level :=
  ⟨rfl, by decide, 3, rfl, by omega, by omega, fun _ => by omega⟩

/-- behind a condition the `?` is shifted, also when it meets the `?` of another conditional -/
theorem loopStep_question {s : Pp} {top : Operator} {ops : List Operator}
    (ho : s.operators = top :: ops) (hcur : s.cur = .question) (hle : top.prec ≤ 4)
    (hq : top.prec = 4 → top.token = .question) :
    loopStep s = some (false, (s.stacks (s.pos + 1) s.operands
      (⟨.question, s.pos, 4⟩ :: s.operators)).opening s.input) := by
  have hk := ppNextToken_operator (pushCurToken s 4) (by show s.cur.isOperand = false; rw [hcur]; rfl)
    (by show s.cur ≠ .rightParen; rw [hcur]; decide)
  have hshift : shiftCurToken s = some (ppNextToken (pushCurToken s 4)) := by
    rw [shiftCurToken, hcur]
    rfl
  by_cases h4 : top.prec = 4
  · rw [loopStep_reduce (n := 4) ho (by rw [hcur]; rfl) (by rw [hcur]; decide) (by rw [hcur]; rfl)
      (by omega) (by omega), h4, cExpr_question, cConditional, ho]
    dsimp only
    have hs : pushOperator { s with operators := ops } top = s := by
      rw [pushOperator]
      show ({ s with operators := top :: ops } : Pp) = s
      rw [← ho]
    rw [if_pos (by rw [hq h4]; decide), if_neg (by rw [hq h4, hcur]; decide), hs, hshift, hk, ← ho, ← hcur]
    rfl
  · rw [loopStep_shift (n := 4) ho (by rw [hcur]; rfl) (by rw [hcur]; decide) (by rw [hcur]; decide)
      (by rw [hcur]; rfl) (Or.inl (by omega)), hcur]
    rfl

/-- behind the second operand the `:` is shifted over the `?` -/
theorem loopStep_colon {s : Pp} {p : Nat} {o : List Operator}
    (ho : s.operators = ⟨.question, p, 4⟩ :: o) (hcur : s.cur = .colon) :
    loopStep s = some (false, (s.stacks (s.pos + 1) s.operands
      (⟨.colon, s.pos, 3⟩ :: s.operators)).opening s.input) := by
  have hk := ppNextToken_operator (pushCurToken s 3) (by show s.cur.isOperand = false; rw [hcur]; rfl)
    (by show s.cur ≠ .rightParen; rw [hcur]; decide)
  have hshift : shiftCurToken s = some (ppNextToken (pushCurToken s 3)) := by
    rw [shiftCurToken, hcur]
    rfl
  rw [loopStep_reduce (n := 3) ho (by rw [hcur]; rfl) (by rw [hcur]; decide) (by rw [hcur]; rfl)
    (by show (3 : Int) ≤ 4; omega) (by omega)]
  show cExpr 4 s = _
  rw [cExpr_question, cConditional, ho]
  dsimp only
  have hs : pushOperator { s with operators := o } ⟨.question, p, 4⟩ = s := by
    rw [pushOperator]
    show ({ s with operators := ⟨.question, p, 4⟩ :: o } : Pp) = s
    rw [← ho]
  rw [if_pos (by decide), if_neg (by rw [hcur]; decide), hs, hshift, hk, ← ho, ← hcur]
  rfl

theorem reads_cond {c a b : Expr} (hc : 5 ≤ c.level) (ihc : Reads c) (iha : Reads a)
    (ihb : Reads b) : Reads (.cond c a b) := by
  intro s top ops after ho hfit hf
  obtain ⟨f1, f2, n, hn, hn1, hn2, hn3⟩ := hf
  obtain ⟨t1, t2, t3⟩ := hfit
  change top.prec < 4 ∨ _ ∨ (15 : Int) ≤ 4 at t2
  have htop : top.prec ≤ 4 := by omega
  have hn3' : n ≤ 3 := hn3 rfl
  have hlb := b.level_ge
  have hla := a.level_ge
  have hlen : (Expr.tokens (.cond c a b)).length
      = c.tokens.length + a.tokens.length + b.tokens.length + 2 := by
    show (c.tokens ++ .question :: (a.tokens ++ .colon :: b.tokens)).length = _
    rw [List.length_append, List.length_cons, List.length_append, List.length_cons]
    omega
  have ht : Expr.tokens (.cond c a b) ++ after
      = c.tokens ++ .question :: (a.tokens ++ .colon :: (b.tokens ++ after)) := by
    show (c.tokens ++ .question :: (a.tokens ++ .colon :: b.tokens)) ++ after = _
    simp only [List.append_assoc, List.cons_append]
  -- the condition and the `?`
  obtain ⟨p1, k1, hp1, hp1', hk1, hs1⟩ := ihc s top ops
    (.question :: (a.tokens ++ .colon :: (b.tokens ++ after))) ho ⟨t1, Or.inr (Or.inl htop), t3⟩
    (follows_question hc)
  have hq := loopStep_question
    (s := s.behind c p1 (.question :: (a.tokens ++ .colon :: (b.tokens ++ after)))) ho rfl htop t3
  -- the second operand and the `:`
  obtain ⟨p2, k2, hp2, hp2', hk2, hs2⟩ := iha
    (s.stacks (s.pos + c.tokens.length + 1) ((c.ppValue, p1) :: s.operands)
      (⟨.question, s.pos + c.tokens.length, 4⟩ :: s.operators))
    ⟨.question, s.pos + c.tokens.length, 4⟩ s.operators (.colon :: (b.tokens ++ after)) rfl
    ⟨by show (4 : Int) ≤ 15; omega, Or.inr (Or.inl (le_refl _)), fun _ => rfl⟩
    (follows_colon hla)
  change s.pos + c.tokens.length + 1 ≤ p2 at hp2
  change p2 < s.pos + c.tokens.length + 1 + a.tokens.length at hp2'
  have hcol := loopStep_colon (p := s.pos + c.tokens.length) (o := s.operators)
    (s := (s.stacks (s.pos + c.tokens.length + 1) ((c.ppValue, p1) :: s.operands)
      (⟨.question, s.pos + c.tokens.length, 4⟩ :: s.operators)).behind a p2
      (.colon :: (b.tokens ++ after))) rfl rfl
  -- the third operand
  obtain ⟨p3, k3, hp3, hp3', hk3, hs3⟩ := ihb
    (s.stacks (s.pos + c.tokens.length + 1 + a.tokens.length + 1)
      ((a.ppValue, p2) :: (c.ppValue, p1) :: s.operands)
      (⟨.colon, s.pos + c.tokens.length + 1 + a.tokens.length, 3⟩ ::
        ⟨.question, s.pos + c.tokens.length, 4⟩ :: s.operators))
    ⟨.colon, s.pos + c.tokens.length + 1 + a.tokens.length, 3⟩
    (⟨.question, s.pos + c.tokens.length, 4⟩ :: s.operators) after rfl
    ⟨by show (3 : Int) ≤ 15; omega, Or.inr (Or.inl (by show (3 : Int) ≤ 4; omega)),
      fun h => absurd h (by show ¬ (3 : Int) = 4; omega)⟩
    ⟨f1, f2, n, hn, by omega, hn2, fun _ => hn3'⟩
  change s.pos + c.tokens.length + 1 + a.tokens.length + 1 ≤ p3 at hp3
  change p3 < s.pos + c.tokens.length + 1 + a.tokens.length + 1 + b.tokens.length at hp3'
  rw [ht]
  refine ⟨p1, 1 + (k3 + (1 + (k2 + (1 + k1)))), hp1, by omega, by omega,
    ((((hs1.trans (Steps.one hq)).trans hs2).trans (Steps.one hcol)).trans hs3).trans
      (Steps.one ?_)⟩
  rw [loopStep_reduce (t := ⟨.colon, s.pos + c.tokens.length + 1 + a.tokens.length, 3⟩)
    (o := ⟨.question, s.pos + c.tokens.length, 4⟩ :: s.operators) (n := n) rfl f1 f2 hn
    (by show n ≤ 3; omega) (by omega)]
  show cExpr 3 _ = _
  rw [cExpr_colon]
  show some (if p3 > s.pos + c.tokens.length + 1 + a.tokens.length then
    (if p2 < s.pos + c.tokens.length + 1 + a.tokens.length ∧ p2 > s.pos + c.tokens.length then
      (if p1 < s.pos + c.tokens.length then _ else _) else _) else _) = _
  rw [if_pos (by omega), if_pos (by omega), if_pos (by omega)]
  have hpos : s.pos + c.tokens.length + 1 + a.tokens.length + 1 + b.tokens.length
      = s.pos + (Expr.tokens (.cond c a b)).length := by omega
  show some (false, (s.stacks
    (s.pos + c.tokens.length + 1 + a.tokens.length + 1 + b.tokens.length) _ _).at after) = _
  rw [hpos]
  rfl

/-- the loop reads every well-formed expression -/
theorem parse_steps (e : Expr) (h : e.WellFormed) : Reads e := by
  induction e with
  | const v type => exact reads_const h
  | paren e ih => exact reads_paren (ih h)
  | unary op e ih => exact reads_unary h.2 (ih h.1)
  | binary op a b iha ihb => exact reads_binary h.2.2.1 h.2.2.2 (iha h.1) (ihb h.2.1)
  | cond c a b ihc iha ihb => exact reads_cond h.2.2.2 (ihc h.1) (iha h.2.1) (ihb h.2.2.1)

theorem tokens_head (e : Expr) : ∃ t l, e.tokens = t :: l ∧ t ≠ .null := by
  induction e with
  | const v type => exact ⟨_, [], rfl, fun h => Token.noConfusion h⟩
  | paren e _ => exact ⟨_, _, rfl, by decide⟩
  | unary op e _ => exact ⟨_, _, rfl, by cases op <;> decide⟩
  | binary op a b ih _ =>
    obtain ⟨t, l, h, hn⟩ := ih
    exact ⟨t, l ++ op.token :: b.tokens, by rw [Expr.tokens, h, List.cons_append], hn⟩
  | cond c a b ih _ _ =>
    obtain ⟨t, l, h, hn⟩ := ih
    exact ⟨t, l ++ .question :: (a.tokens ++ .colon :: b.tokens),
      by rw [Expr.tokens, h, List.cons_append], hn⟩

/-- `PrecedenceParse` reads a well-formed expression without an error -/
theorem precedenceParse_tokens (e : Expr) (h : e.WellFormed) :
    precedenceParse e.tokens = some (e.ppValue, []) := by
  obtain ⟨t, l, ht, hnull⟩ := tokens_head e
  have hfirst : nextToken ⟨.null, e.tokens, 0, [], [], []⟩ = ⟨t, l, 0, [], [], []⟩ := by
    rw [ht]
    rfl
  have hstart : (checkToken .start { pushOperator ⟨t, l, 0, [], [], []⟩ ⟨.start, 0, 0⟩ with pos := 1 }).2
      = (⟨.null, [], 1, [], [⟨.start, 0, 0⟩], []⟩ : Pp).opening (e.tokens ++ []) := by
    rw [checkToken_opens _ rfl (by decide), List.append_nil, ht]
    rfl
  obtain ⟨p, k, -, -, hk, hs⟩ := parse_steps e h ⟨.null, [], 1, [], [⟨.start, 0, 0⟩], []⟩
    ⟨.start, 0, 0⟩ [] [] rfl
    ⟨by show (0 : Int) ≤ 15; omega, Or.inr (Or.inl (by show (0 : Int) ≤ 4; omega)),
      fun h => absurd h (by show ¬ (0 : Int) = 4; omega)⟩
    ⟨rfl, by decide, -1, rfl, by have := e.level_ge; omega, by omega, fun _ => by omega⟩
  have hend : loopStep ((⟨.null, [], 1, [], [⟨.start, 0, 0⟩], []⟩ : Pp).behind e p [])
      = some (true, ({ (⟨.null, [], 1, [], [⟨.start, 0, 0⟩], []⟩ : Pp).behind e p [] with
          operators := [] } : Pp)) := by
    rw [loopStep_reduce (t := ⟨.start, 0, 0⟩) (o := []) (n := -1) rfl rfl
      (by show Token.null ≠ .leftParen; decide) rfl
      (by show (-1 : Int) ≤ 0; omega) (by omega)]
    rfl
  obtain ⟨m, hm⟩ : ∃ m, 2 * e.tokens.length + 2 = (m + 1) + k :=
    ⟨2 * e.tokens.length + 1 - k, by omega⟩
  rw [precedenceParse, hfirst]
  dsimp only
  rw [if_neg hnull, hstart, hm, hs (m + 1), loop, hend]
  rfl

end PpExpn
