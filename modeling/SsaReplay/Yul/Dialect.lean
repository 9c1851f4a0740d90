import SsaReplay.Ident

namespace SsaReplay.Yul

-- What a call can do to the flow of control.
structure Effects where
  canTerminate : Bool
  canRevert : Bool
  -- False when control never comes back from the call.
  canContinue : Bool
deriving DecidableEq

namespace Effects

def continuing : Effects := ⟨false, false, true⟩

def terminating : Effects := ⟨true, false, false⟩

def reverting : Effects := ⟨false, true, false⟩

end Effects

structure Builtin where
  name : String
  parameters : Nat
  returns : Nat
  effects : Effects
  -- Positions of the arguments that are resolved when the program is compiled and
  -- never become inputs of an operation.
  literalArguments : List Nat

namespace Builtin

def continuing (name : String) (parameters returns : Nat) : Builtin :=
  ⟨name, parameters, returns, .continuing, []⟩

def isLiteralArgument (b : Builtin) (index : Nat) : Bool := b.literalArguments.contains index

end Builtin

-- The builtins of a target, and the one that compares the value of a switch with
-- the values of its cases.
structure Dialect where
  builtins : Array Builtin
  equality? : Option BuiltinId

namespace Dialect

def empty : Dialect := ⟨#[], none⟩

def add (d : Dialect) (b : Builtin) : BuiltinId × Dialect :=
  (⟨d.builtins.size⟩, { d with builtins := d.builtins.push b })

def builtin? (d : Dialect) (id : BuiltinId) : Option Builtin := d.builtins[id.index]?

-- Of several builtins of one name the last one counts.
def find? (d : Dialect) (name : String) : Option BuiltinId :=
  ((List.range d.builtins.size).reverse.find?
    (fun i => (d.builtins[i]?).any (fun b => b.name == name))).map BuiltinId.mk

def named? (d : Dialect) (name : String) : Option Builtin := (d.find? name).bind d.builtin?

-- The machine of Ethereum, as far as the programs at hand use it.
def evm : Dialect where
  builtins := #[
    .continuing "add" 2 1, .continuing "sub" 2 1, .continuing "mul" 2 1, .continuing "div" 2 1,
    .continuing "mod" 2 1, .continuing "exp" 2 1, .continuing "not" 1 1, .continuing "lt" 2 1,
    .continuing "gt" 2 1, .continuing "slt" 2 1, .continuing "sgt" 2 1, .continuing "eq" 2 1,
    .continuing "iszero" 1 1, .continuing "and" 2 1, .continuing "or" 2 1, .continuing "xor" 2 1,
    .continuing "shl" 2 1, .continuing "shr" 2 1, .continuing "keccak256" 2 1,
    .continuing "address" 0 1, .continuing "caller" 0 1, .continuing "callvalue" 0 1,
    .continuing "calldataload" 1 1, .continuing "calldatasize" 0 1, .continuing "calldatacopy" 3 0,
    .continuing "mload" 1 1, .continuing "mstore" 2 0, .continuing "mstore8" 2 0,
    .continuing "sload" 1 1, .continuing "sstore" 2 0, .continuing "gas" 0 1, .continuing "pop" 1 0,
    ⟨"return", 2, 0, .terminating, []⟩, ⟨"stop", 0, 0, .terminating, []⟩,
    ⟨"revert", 2, 0, .reverting, []⟩, ⟨"invalid", 0, 0, .reverting, []⟩,
    ⟨"datasize", 1, 1, .continuing, [0]⟩, ⟨"dataoffset", 1, 1, .continuing, [0]⟩,
    .continuing "datacopy" 3 0]
  equality? := some ⟨11⟩

end Dialect

end SsaReplay.Yul
