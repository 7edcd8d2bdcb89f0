import V6User.Shell.Token

/-!
# The shell's environment table

`programs/sh/sh.c`: `struct env_var`, `env_vars`, `env_get`, `env_set`,
`env_unset`, `env_assignment_name_len` and `env_set_assignment`.

The table has 64 slots; a slot holds a name of at most 63 bytes and a value of
at most 255, cut to that length when they are stored.  The copies kept in the
process environment (`setenv`, `unsetenv`) are not modelled: the table is what
the shell itself reads.
-/

namespace V6User
namespace Shell

/-- `MAX_ENV_VARS`. -/
def maxEnvVars : ℕ := 64

/-- `MAX_ENV_NAME`. -/
def maxEnvName : ℕ := 64

/-- `MAX_ENV_VALUE`. -/
def maxEnvValue : ℕ := 256

/-- The first `n` bytes of a string. -/
def CStr.take (s : CStr) (n : ℕ) : CStr :=
  ⟨s.bytes.take n, fun h => s.nul_free (List.mem_of_mem_take h)⟩

/-- The string `n` bytes further on. -/
def CStr.drop (s : CStr) (n : ℕ) : CStr :=
  ⟨s.bytes.drop n, fun h => s.nul_free (List.mem_of_mem_drop h)⟩

@[simp] theorem CStr.take_bytes (s : CStr) (n : ℕ) : (s.take n).bytes = s.bytes.take n := rfl

@[simp] theorem CStr.drop_bytes (s : CStr) (n : ℕ) : (s.drop n).bytes = s.bytes.drop n := rfl

/-- `struct env_var`: the two buffers hold a string and its NUL. -/
structure EnvVar where
  name : CStr
  value : CStr
  used : Bool
  name_lt : name.bytes.length < maxEnvName
  value_lt : value.bytes.length < maxEnvValue

/-- `env_vars[MAX_ENV_VARS]`. -/
structure Env where
  vars : List EnvVar
  size : vars.length = maxEnvVars

/-- The table with no slot in use, as `env_init` starts with. -/
def Env.cleared : Env where
  vars := List.replicate maxEnvVars ⟨⟨[], by simp⟩, ⟨[], by simp⟩, false, by decide, by decide⟩
  size := List.length_replicate

/-- `env_name_start(c)`. -/
def envNameStart (c : Byte) : Bool := (65 ≤ c && c ≤ 90) || (97 ≤ c && c ≤ 122) || c == 95

/-- `env_name_char(c)`. -/
def envNameChar (c : Byte) : Bool := envNameStart c || (48 ≤ c && c ≤ 57)

/-- The slot is in use and has this name. -/
def EnvVar.isNamed (v : EnvVar) (name : List Byte) : Bool := v.used && v.name.bytes == name

/-- `env_get(name)`. -/
def envGet (env : Env) (name : List Byte) : Option CStr :=
  (env.vars.find? fun v => v.isNamed name).map EnvVar.value

/-- The slot with a value stored in it, cut to what the buffer holds. -/
def EnvVar.setValue (v : EnvVar) (value : CStr) : EnvVar where
  name := v.name
  value := value.take (maxEnvValue - 1)
  used := v.used
  name_lt := v.name_lt
  value_lt := by
    rw [CStr.take_bytes, List.length_take]
    exact (Nat.min_le_left _ _).trans_lt (by decide)

/-- A slot with a name and a value, each cut to what its buffer holds. -/
def EnvVar.make (name value : CStr) : EnvVar where
  name := name.take (maxEnvName - 1)
  value := value.take (maxEnvValue - 1)
  used := true
  name_lt := by
    rw [CStr.take_bytes, List.length_take]
    exact (Nat.min_le_left _ _).trans_lt (by decide)
  value_lt := by
    rw [CStr.take_bytes, List.length_take]
    exact (Nat.min_le_left _ _).trans_lt (by decide)

/-- Rewrite the first slot that passes a test, if there is one. -/
def Env.updateFirst (env : Env) (p : EnvVar → Bool) (f : EnvVar → EnvVar) : Option Env :=
  if env.vars.any p then
    some ⟨env.vars.modify (env.vars.findIdx p) f, by rw [List.length_modify, env.size]⟩
  else none

/-- `env_set(name, value)`: the table after it, or `-1` when no slot is left. -/
def envSet (env : Env) (name value : CStr) : Option Env :=
  (env.updateFirst (fun v => v.isNamed name.bytes) fun v => v.setValue value).orElse fun _ =>
    env.updateFirst (fun v => !v.used) fun _ => .make name value

/-- `env_unset(name)`: the table after it, or `-1` when there is no such name. -/
def envUnset (env : Env) (name : CStr) : Option Env :=
  env.updateFirst (fun v => v.isNamed name.bytes) fun v => { v with used := false }

/-- `env_assignment_name_len(word)`: the length of `NAME` in `NAME=value`, or
`0` when the word has another form. -/
def envAssignmentNameLen (word : List Byte) : ℕ :=
  let name := word.takeWhile (· != 61)
  if word.head?.any envNameStart && name.all envNameChar && word.contains 61 then name.length
  else 0

/-- `env_set_assignment(assignment)`. -/
def envSetAssignment (env : Env) (assignment : CStr) : Option Env :=
  let nlen := envAssignmentNameLen assignment.bytes
  if nlen = 0 then none
  else envSet env ((assignment.take nlen).take (maxEnvName - 1)) (assignment.drop (nlen + 1))

end Shell
end V6User
