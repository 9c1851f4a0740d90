namespace SsaReplay

-- Entities are named by the position at which they were made, and each kind has
-- its own type. The text form is the kind followed by the position.

structure NodeId where
  index : Nat
deriving DecidableEq

structure ScopeId where
  index : Nat
deriving DecidableEq

-- A variable is identified by its declaration, not by its name.
structure VariableId where
  index : Nat
deriving DecidableEq

structure FunctionId where
  index : Nat
deriving DecidableEq

structure BuiltinId where
  index : Nat
deriving DecidableEq

structure ValueId where
  index : Nat
deriving DecidableEq

structure BlockId where
  index : Nat
deriving DecidableEq

-- The greatest 32-bit position is never given to an entity. It stands for none where
-- there has to be a number.
def reservedIndex : Nat := UInt32.size - 1

instance : ToString NodeId := ⟨fun n => "node" ++ n.index.repr⟩
instance : ToString ScopeId := ⟨fun s => "scope" ++ s.index.repr⟩
instance : ToString VariableId := ⟨fun v => "var" ++ v.index.repr⟩
instance : ToString FunctionId := ⟨fun f => "func" ++ f.index.repr⟩
instance : ToString BuiltinId := ⟨fun b => "builtin" ++ b.index.repr⟩
instance : ToString ValueId := ⟨fun v => "v" ++ v.index.repr⟩
instance : ToString BlockId := ⟨fun b => "block" ++ b.index.repr⟩

end SsaReplay
