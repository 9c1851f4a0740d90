import SsaReplay.Ident
import SsaReplay.Word

namespace SsaReplay.Yul

inductive LiteralKind
  | number
  | boolean
  | string
deriving DecidableEq

structure Literal where
  kind : LiteralKind
  value : Word
  -- The text of a string literal as it was written.
  spelling? : Option String
deriving DecidableEq

namespace Literal

def number (w : Word) : Literal := ⟨.number, w, none⟩

def boolean (b : Bool) : Literal := ⟨.boolean, if b then 1 else 0, none⟩

def string (s : String) : Literal := ⟨.string, Word.ofText s, some s⟩

def isZero (l : Literal) : Bool := l.value == 0

instance : ToString Literal where
  toString l :=
    match l.kind, l.spelling? with
    | .string, some s => "\"" ++ s ++ "\""
    | .boolean, _ => if l.isZero then "false" else "true"
    | _, _ => l.value.text

end Literal

inductive Expr
  | call (callee : String) (arguments : List Expr)
  | ident (name : String)
  | literal (l : Literal)

-- Blocks open the lexical scopes, so they are what carries an identity. A case
-- without a value is the default case of its switch.
mutual
inductive Block
  | mk (id : NodeId) (statements : List Stmt)
inductive Stmt
  | expr (e : Expr)
  | assign (names : List String) (value : Expr)
  | letDecl (names : List String) (value? : Option Expr)
  | funDef (name : String) (parameters returns : List String) (body : Block)
  | cond (condition : Expr) (body : Block)
  | switch (value : Expr) (cases : List Case)
  | forLoop (pre : Block) (condition : Expr) (post body : Block)
  | breakLoop
  | continueLoop
  | leave
  | block (body : Block)
inductive Case
  | mk (value? : Option Literal) (body : Block)
end

-- A function as it is written down.
structure Definition where
  name : String
  parameters : List String
  returns : List String
  body : Block

def Block.id : Block → NodeId
  | .mk id _ => id

def Block.statements : Block → List Stmt
  | .mk _ statements => statements

-- The block that a statement is about, and an empty one where there is none.
def Stmt.body : Stmt → Block
  | .funDef _ _ _ body | .cond _ body | .forLoop _ _ _ body | .block body => body
  | _ => .mk ⟨0⟩ []

def Stmt.post : Stmt → Block
  | .forLoop _ _ post _ => post
  | _ => .mk ⟨0⟩ []

def Stmt.isFunDef : Stmt → Bool
  | .funDef .. => true
  | _ => false

-- A block comes before the blocks inside it; a loop gives pre, post and body.
mutual
def Block.subBlocks : Block → List Block
  | .mk id statements => .mk id statements :: stmtsBlocks statements
def stmtBlocks : Stmt → List Block
  | .funDef _ _ _ body => body.subBlocks
  | .cond _ body => body.subBlocks
  | .switch _ cases => casesBlocks cases
  | .forLoop pre _ post body => pre.subBlocks ++ post.subBlocks ++ body.subBlocks
  | .block body => body.subBlocks
  | _ => []
def stmtsBlocks : List Stmt → List Block
  | [] => []
  | s :: rest => stmtBlocks s ++ stmtsBlocks rest
def casesBlocks : List Case → List Block
  | [] => []
  | .mk _ body :: rest => body.subBlocks ++ casesBlocks rest
end

end SsaReplay.Yul
