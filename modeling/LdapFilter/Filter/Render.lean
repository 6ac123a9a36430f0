import LdapFilter.Filter.Basic

/-!
# The text of filters

A filter is written in parentheses, with its operator in front of its children.
-/

namespace LdapFilter

open Text

namespace Test

def render (t : Test) : String :=
  match t with
  | equal _ value => "(" ++ t.property ++ "=" ++ value ++ ")"
  | absent _ => "(!(" ++ t.property ++ "=*))"
  | bitwise _ _ mask => "(" ++ t.property ++ "=" ++ Decimal.text mask.toInt ++ ")"
  | inChain _ entry => "(" ++ t.property ++ "=" ++ entry ++ ")"

def renderNegated (t : Test) : String :=
  "(!" ++ t.render ++ ")"

def renderMember (t : Test) : String :=
  if t.isLiteral then t.renderNegated else t.render

def renderMembers : List Test → String
  | [] => ""
  | t :: ts => t.renderMember ++ renderMembers ts

end Test

namespace Filter

mutual
def render : Filter → String
  | .test t => t.render
  | .not t => t.renderNegated
  | .and children _ => "(&" ++ renderAll children ++ ")"
  | .or children _ => "(|" ++ renderAll children ++ ")"
  | .nor members _ => "(&" ++ Test.renderMembers members ++ ")"

def renderAll : List Filter → String
  | [] => ""
  | f :: fs => f.render ++ renderAll fs
end

/-- A member of a nor group is written as the filter that it stands for. -/
theorem render_ofMember (t : Test) : (ofMember t).render = t.renderMember := by
  unfold ofMember Test.renderMember
  split <;> simp [render]

/-- The members of a nor group are written as the children of the group. -/
theorem renderAll_map_ofMember (ts : List Test) :
    renderAll (ts.map ofMember) = Test.renderMembers ts := by
  induction ts with
  | nil => simp [renderAll, Test.renderMembers]
  | cons t ts ih => simp [renderAll, Test.renderMembers, render_ofMember, ih]

end Filter

end LdapFilter
