import Microstep.TypeTable

/-!
# Explicit control flow

What may be left out of a body, written out: the branch of a conditional that does nothing, and the
return at the end of a body.
-/

namespace Microstep

mutual

/-- A command in which every conditional, at any depth, has both branches. -/
def Command.explicit : Command → Command
  | .cond condition thenBranch elseBranch =>
    .cond condition (Command.explicitAll thenBranch) (some (Command.explicitElse elseBranch))
  | .entry => .entry
  | .assign target value => .assign target value
  | .call receiver method args => .call receiver method args
  | .ret value => .ret value

/-- Commands in which every conditional has both branches. -/
def Command.explicitAll : List Command → List Command
  | [] => []
  | c :: rest => c.explicit :: Command.explicitAll rest

/-- The branch that is taken when the condition fails; empty if it was left out. -/
def Command.explicitElse : Option (List Command) → List Command
  | none => []
  | some branch => Command.explicitAll branch

end

/-- A method that returns at its end. -/
def MethodDef.explicit (m : MethodDef) : MethodDef :=
  { m with commands := Command.explicitAll m.commands ++ [.ret none] }

/-- A type with its methods written out. -/
def TypeDef.explicit (t : TypeDef) : TypeDef :=
  { t with methods := t.methods.map (·.explicit) }

/-- A table with all methods written out. -/
def TypeTable.explicit (table : TypeTable) : TypeTable :=
  table.map (·.explicit)

end Microstep
