import ModuleGraph.Query.Error

namespace ModuleGraph

/-- What a user should know although the query goes on. -/
inductive Warning
  | unusedVersion (key : Key)
  | neverImported (repo : String) (extension : ExtensionId) (module : Key)
  | truncated (paths steps : Nat)
deriving DecidableEq

def Warning.message : Warning → String
  | .unusedVersion key =>
    "Module version " ++ key.text ++ " is unused as a result of version selection"
  | .neverImported repo extension module =>
    "Repository " ++ repo ++ " generated by " ++ extension.text ++ " for " ++ module.text ++
      " is never imported"
  | .truncated _ _ => "Path enumeration truncated"

structure Answer (α : Type) where
  result : Except QueryError α
  warnings : List Warning

namespace Answer

variable {α β : Type}

def ok (a : α) : Answer α := ⟨.ok a, []⟩

def fail (e : QueryError) : Answer α := ⟨.error e, []⟩

def warning (ws : List Warning) (a : α) : Answer α := ⟨.ok a, ws⟩

def lift (x : Except QueryError α) : Answer α := ⟨x, []⟩

def bind (x : Answer α) (f : α → Answer β) : Answer β :=
  match x.result with
  | .error e => ⟨.error e, x.warnings⟩
  | .ok a => ⟨(f a).result, x.warnings ++ (f a).warnings⟩

instance : Monad Answer where
  pure := ok
  bind := bind

@[simp] theorem pure_eq (a : α) : (pure a : Answer α) = ok a := rfl

@[simp] theorem bind_ok (a : α) (ws : List Warning) (f : α → Answer β) :
    (⟨.ok a, ws⟩ : Answer α) >>= f = ⟨(f a).result, ws ++ (f a).warnings⟩ := rfl

@[simp] theorem bind_error (e : QueryError) (ws : List Warning) (f : α → Answer β) :
    (⟨.error e, ws⟩ : Answer α) >>= f = ⟨.error e, ws⟩ := rfl

instance : LawfulMonad Answer := LawfulMonad.mk' Answer
  (by rintro α ⟨_ | a, ws⟩ <;> simp [Functor.map, bind, ok])
  (by intro α β x f; simp [Bind.bind, Pure.pure, bind, ok])
  (by
    rintro α β γ ⟨_ | a, ws⟩ f g
    · rfl
    · simp only [bind_ok]
      rcases h : f a with ⟨_ | b, ws⟩ <;> simp [List.append_assoc])

def inArgument (argument : Argument) (x : Answer α) : Answer α :=
  ⟨x.result.mapError (.inArgument argument), x.warnings⟩

end Answer

end ModuleGraph
