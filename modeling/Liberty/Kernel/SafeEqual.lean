/-!
# SAFE_EQUAL

The comparison that the searches of the collections use: `is_equal` is only called for two objects
of one dynamic type.
-/

namespace Liberty

/-- The comparisons of a type of items.  An expanded type has no Void, so `e_type` is never Void. -/
structure SafeEqual (α : Type) where
  identical : α → α → Bool
  isVoid : α → Bool
  isReference : Bool
  sameDynamicType : α → α → Bool
  isEqual : α → α → Bool

namespace SafeEqual

variable {α : Type}

/-- `test`, `safe_equal` -/
def test (E : SafeEqual α) (e1 e2 : α) : Bool :=
  if E.identical e1 e2 then true
  else if E.isVoid e1 then false
  else if E.isVoid e2 then false
  else if E.isReference then
    if E.sameDynamicType e1 e2 then E.isEqual e1 e2 else false
  else false

/-- `=` and `is_equal` coincide. -/
def Coincide (E : SafeEqual α) : Prop :=
  ∀ e1 e2, E.identical e1 e2 = E.test e1 e2

/-- INTEGER -/
def integer : SafeEqual Int where
  identical e1 e2 := decide (e1 = e2)
  isVoid _ := false
  isReference := false
  sameDynamicType _ _ := true
  isEqual e1 e2 := decide (e1 = e2)

end SafeEqual

end Liberty
