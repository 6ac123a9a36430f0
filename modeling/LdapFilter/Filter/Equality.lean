import LdapFilter.Filter.Basic

/-!
# Equality of filters

Two filters are equal when they have the same kind, the same parts and the same sizes, child by
child. `Filter.beq` decides it.
-/

namespace LdapFilter.Filter

mutual
def beq : Filter → Filter → Bool
  | .test s, .test t => s = t
  | .not s, .not t => s = t
  | .and cs m, .and ds n => m = n && beqList cs ds
  | .or cs m, .or ds n => m = n && beqList cs ds
  | .nor ss m, .nor ts n => m = n && ss = ts
  | _, _ => false

def beqList : List Filter → List Filter → Bool
  | [], [] => true
  | c :: cs, d :: ds => beq c d && beqList cs ds
  | _, _ => false
end

mutual
theorem beq_iff (f g : Filter) : f.beq g = true ↔ f = g := by
  match f, g with
  | .test s, .test t => simp [beq]
  | .not s, .not t => simp [beq]
  | .and cs m, .and ds n => simp [beq, beqList_iff cs ds, and_comm]
  | .or cs m, .or ds n => simp [beq, beqList_iff cs ds, and_comm]
  | .nor ss m, .nor ts n => simp [beq, and_comm]
  | .test _, .not _ | .test _, .and _ _ | .test _, .or _ _ | .test _, .nor _ _
  | .not _, .test _ | .not _, .and _ _ | .not _, .or _ _ | .not _, .nor _ _
  | .and _ _, .test _ | .and _ _, .not _ | .and _ _, .or _ _ | .and _ _, .nor _ _
  | .or _ _, .test _ | .or _ _, .not _ | .or _ _, .and _ _ | .or _ _, .nor _ _
  | .nor _ _, .test _ | .nor _ _, .not _ | .nor _ _, .and _ _ | .nor _ _, .or _ _ =>
    simp [beq]

theorem beqList_iff (cs ds : List Filter) : beqList cs ds = true ↔ cs = ds := by
  match cs, ds with
  | [], [] => simp [beqList]
  | c :: cs, d :: ds => simp [beqList, beq_iff c d, beqList_iff cs ds]
  | [], _ :: _ | _ :: _, [] => simp [beqList]
end

instance : DecidableEq Filter := fun f g =>
  decidable_of_iff (f.beq g = true) (beq_iff f g)

end LdapFilter.Filter
