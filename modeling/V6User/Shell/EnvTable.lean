import V6User.Base.Slots
import V6User.Shell.RunLine

/-!
# What the table gives after assignments

`programs/sh/sh.c`: `env_get` after `env_set`, and after the second loop of
`run_assignment_only_line`.

A name that is set gives its value, cut to what the slot holds, and every other name gives
what it gave before (`envGet_envSet`).  So after a row of assignment words each of which
finds a slot, a name gives the value of the last word that assigns it
(`value_runAssignments`).
-/

namespace V6User
namespace Shell

/-- The value of a name in the table. -/
def Env.value (env : Env) (name : List Byte) : Option (List Byte) :=
  (envGet env name).map CStr.bytes

/-- The name of a slot that is in use. -/
def EnvVar.key (v : EnvVar) : Option (List Byte) := if v.used then some v.name.bytes else none

theorem EnvVar.isNamed_eq (v : EnvVar) (name : List Byte) :
    v.isNamed name = decide (v.key = some name) := by
  rw [EnvVar.isNamed, EnvVar.key]
  cases v.used <;> simp [beq_eq_decide]

theorem EnvVar.not_used_eq (v : EnvVar) : (!v.used) = decide (v.key = none) := by
  rw [EnvVar.key]
  cases v.used <;> simp

theorem envGet_eq (env : Env) (name : List Byte) :
    envGet env name = (Slots.lookup EnvVar.key env.vars name).map EnvVar.value := by
  simp only [envGet, Slots.lookup, EnvVar.isNamed_eq]

theorem EnvVar.key_setValue (v : EnvVar) (value : CStr) : (v.setValue value).key = v.key := rfl

theorem EnvVar.key_make {name : CStr} (h : name.bytes.length < maxEnvName) (value : CStr) :
    (EnvVar.make name value).key = some name.bytes := by
  rw [EnvVar.key, EnvVar.make, if_pos rfl]
  exact congrArg some (List.take_of_length_le (Nat.le_pred_of_lt h))

theorem any_isNamed_iff (env : Env) (name : List Byte) :
    (env.vars.any fun v => v.isNamed name) = true ↔ name ∈ Slots.keys EnvVar.key env.vars := by
  rw [List.any_eq_true, Slots.keys, List.mem_filterMap]
  simp only [EnvVar.isNamed_eq, decide_eq_true_eq]

theorem any_not_used_iff (env : Env) :
    (env.vars.any fun v => !v.used) = true ↔ ∃ v ∈ env.vars, v.key = none := by
  rw [List.any_eq_true]
  simp only [EnvVar.not_used_eq, decide_eq_true_eq]

/-- What `env_set` does to the slots. -/
theorem vars_envSet {env env' : Env} {name value : CStr} (h : envSet env name value = some env') :
    (name.bytes ∈ Slots.keys EnvVar.key env.vars ∧ env'.vars =
        Slots.update EnvVar.key env.vars (some name.bytes) fun v => v.setValue value) ∨
      (name.bytes ∉ Slots.keys EnvVar.key env.vars ∧ (∃ v ∈ env.vars, v.key = none) ∧
        env'.vars = Slots.update EnvVar.key env.vars none fun _ => .make name value) := by
  by_cases hany : (env.vars.any fun v => v.isNamed name.bytes) = true
  · refine .inl ⟨(any_isNamed_iff env name.bytes).1 hany, ?_⟩
    rw [envSet, Env.updateFirst, if_pos hany] at h
    rw [← Option.some.inj h]
    simp only [Slots.update, EnvVar.isNamed_eq]
  · rw [envSet, Env.updateFirst, if_neg hany] at h
    have hfill : (env.updateFirst (fun v => !v.used) fun _ => .make name value) = some env' := h
    rw [Env.updateFirst] at hfill
    split_ifs at hfill with hfree
    refine .inr ⟨mt (any_isNamed_iff env name.bytes).2 hany, (any_not_used_iff env).1 hfree, ?_⟩
    rw [← Option.some.inj hfill]
    simp only [Slots.update, EnvVar.not_used_eq]

/-- **A name that is set gives its value**, and the others what they gave. -/
theorem envGet_envSet {env env' : Env} {name value : CStr} (hname : name.bytes.length < maxEnvName)
    (h : envSet env name value = some env') (m : List Byte) :
    envGet env' m = if m = name.bytes then some (value.take (maxEnvValue - 1)) else envGet env m := by
  rw [envGet_eq, envGet_eq]
  rcases vars_envSet h with ⟨hmem, hvars⟩ | ⟨hmem, hfree, hvars⟩
  · obtain ⟨v, hv⟩ : ∃ v, Slots.lookup EnvVar.key env.vars name.bytes = some v := by
      refine Option.ne_none_iff_exists'.1 fun hnone => ?_
      exact Slots.lookup_eq_none_iff.1 hnone hmem
    rw [hvars, Slots.lookup_update fun v hv => (v.key_setValue value).trans hv]
    split_ifs with hm
    · rw [hv]
      rfl
    · rfl
  · rw [hvars, Slots.lookup_fill (EnvVar.key_make hname value) (Slots.lookup_eq_none_iff.2 hmem)
      hfree]
    split_ifs <;> rfl

/-! ### Assignment words -/

/-- `NAME` of an assignment word. -/
def assignedName (w : List Byte) : List Byte := w.take (envAssignmentNameLen w)

/-- The value of an assignment word. -/
def assignedValue (w : List Byte) : List Byte := w.drop (envAssignmentNameLen w + 1)

/-- An assignment word whose name and value fit into a slot. -/
structure ShortAssignment (w : List Byte) : Prop where
  pos : 0 < envAssignmentNameLen w
  name : envAssignmentNameLen w < maxEnvName
  value : (assignedValue w).length < maxEnvValue

/-- What a row of assignment words gives a name: the value of the last that assigns it. -/
def lastValue : List (List Byte) → List Byte → Option (List Byte)
  | [], _ => none
  | w :: ws, name =>
    (lastValue ws name).or (if name = assignedName w then some (assignedValue w) else none)

/-- Each word finds a slot when its turn comes. -/
def Env.NeverFull (env : Env) : List CStr → Prop
  | [] => True
  | w :: ws => ∃ env', envSetAssignment env w = some env' ∧ env'.NeverFull ws

theorem value_envSetAssignment {env env' : Env} {w : CStr} (hw : ShortAssignment w.bytes)
    (h : envSetAssignment env w = some env') (m : List Byte) :
    env'.value m = (if m = assignedName w.bytes then some (assignedValue w.bytes) else none).or
      (env.value m) := by
  have hname : ((w.take (envAssignmentNameLen w.bytes)).take (maxEnvName - 1)).bytes =
      assignedName w.bytes := by
    rw [CStr.take_bytes, CStr.take_bytes]
    refine List.take_of_length_le ?_
    rw [List.length_take]
    exact (Nat.min_le_left _ _).trans (Nat.le_pred_of_lt hw.name)
  have hlen : (assignedName w.bytes).length < maxEnvName := by
    rw [assignedName, List.length_take]
    exact (Nat.min_le_left _ _).trans_lt hw.name
  rw [envSetAssignment, if_neg (Nat.ne_of_gt hw.pos)] at h
  rw [Env.value, envGet_envSet (by rwa [hname]) h, hname]
  split_ifs with hm
  · have hvalue : (assignedValue w.bytes).take (maxEnvValue - 1) = assignedValue w.bytes :=
      List.take_of_length_le (Nat.le_pred_of_lt hw.value)
    exact congrArg some hvalue
  · rfl

/-- **What a row of assignments leaves in the table.** -/
theorem value_runAssignments (ws : List CStr) {env : Env} (hfull : env.NeverFull ws)
    (hshort : ∀ w ∈ ws, ShortAssignment w.bytes) (m : List Byte) :
    (runAssignments env ws).1.value m =
      (lastValue (ws.map CStr.bytes) m).or (env.value m) := by
  induction ws generalizing env with
  | nil => rfl
  | cons w ws ih =>
    obtain ⟨hw, hws⟩ := List.forall_mem_cons.1 hshort
    obtain ⟨env', hset, hfull'⟩ := hfull
    rw [runAssignments, hset]
    dsimp only
    rw [ih hfull' hws, value_envSetAssignment hw hset, List.map_cons, lastValue, Option.or_assoc]

end Shell
end V6User
