import Frontend.Pool.Capacity
import Frontend.Tree.Basic

/-! # What a tree costs

Every expression is charged to the pool as one block, every sequence as the buffer of an array. These
are the blocks.
-/
namespace Frontend

open Pool (Layout)

def Expr.layout : Layout := .words 10 (by decide)

def Expr.referenceLayout : Layout := .words 1 (by decide)

def Stmt.layout : Layout := .words 6 (by decide)

def Param.layout : Layout := .words 3 (by decide)

def Function.layout : Layout := .words 15 (by decide)

end Frontend
