import TypeAlgebra.Form

/-! The registry of types. It only grows: a form keeps its number, and a name its type. A form is
registered only where no other has its key. -/
namespace TypeAlgebra

structure Registry where
  forms : List Form
  /-- The keys of the forms, in the same order. -/
  keys : List Form.Key
  names : List (String × Ty)
  keys_eq : keys = forms.map (·.key) := by rfl

namespace Registry

/-- The registry every session begins with. -/
def initial : Registry where
  forms := [.primitive .int [], .primitive .str [], .failure]
  keys := [.refined .int [], .refined .str [], .failure]
  names := [("int", .int), ("str", .str), ("error", .error)]

def get (r : Registry) (ty : Ty) : Form := r.forms.getD ty.index .failure

def name (r : Registry) (ty : Ty) : String := (r.get ty).display

def find? (r : Registry) (key : Form.Key) : Option Ty :=
  (r.keys.findIdx? fun other => other = key).map Ty.mk

/-- The type of the form's key, registered now if there is none. -/
def internAs (r : Registry) (key : Form.Key) (form : Form) (h : key = form.key) : Ty × Registry :=
  match r.find? key with
  | some ty => (ty, r)
  | none => (⟨r.forms.length⟩, { r with
      forms := r.forms ++ [form]
      keys := r.keys ++ [key]
      keys_eq := by rw [r.keys_eq, h, List.map_append, List.map_singleton] })

def intern (r : Registry) (form : Form) : Ty × Registry := r.internAs form.key form rfl

def lookup (r : Registry) (name : String) : Option Ty := r.names.lookup name

/-- Gives a type a name, which it then has for good. -/
def declare (r : Registry) (name : String) (ty : Ty) : Except Failure Registry :=
  match r.lookup name with
  | some _ => .error (.alreadyDefined name)
  | none => .ok { r with names := r.names ++ [(name, ty)] }

def fields? (r : Registry) (ty : Ty) : Option (List (String × Ty)) := (r.get ty).fields?

def signature? (r : Registry) (ty : Ty) : Option (List Ty) := (r.get ty).signature?

def variants (r : Registry) (ty : Ty) : Variants :=
  match r.get ty with
  | .sum _ left right => .node ty left right
  | _ => .leaf ty

/-- The leaves of a type as a set. A sum has them in its key. -/
def leaves (r : Registry) (ty : Ty) : List Ty :=
  match r.keys.getD ty.index .failure with
  | .sum leaves => leaves
  | _ => [ty]

theorem key_get (r : Registry) (ty : Ty) : (r.get ty).key = r.keys.getD ty.index .failure := by
  rw [r.keys_eq, get, List.getD_eq_getElem?_getD, List.getD_eq_getElem?_getD, List.getElem?_map,
    ← Option.getD_map Form.key]
  rfl

theorem leaves_variants (r : Registry) (ty : Ty) : (r.variants ty).leaves = r.leaves ty := by
  unfold variants leaves
  rw [← r.key_get]
  cases r.get ty <;> rfl

end Registry
end TypeAlgebra
