import V6User.Shell.EnvTable

/-!
# The table is a finite map

`programs/sh/sh.c`: `env_init`, `env_set`, `env_unset`, `env_set_assignment`,
`env_enable_gpu_defaults` and `env_enable_gui_session`, and the command lines that change
the table.

A session is the row of calls that the shell makes on its table: the defaults, and then
what `run_line` does for each line.  A slot is looked up by the whole name and filled with
the first 63 bytes of it, so the table stays a finite map, and a name that was set gives
its value, exactly as long as no longer name is set (`finiteMap_iff`).  Only `export` can
do that: an assignment word is cut to 63 bytes before it is looked up.
-/

namespace V6User
namespace Shell

/-- The bytes of a text of the source. -/
def CStr.ofText (s : String) : CStr := CStr.ofBytes (s.toList.map fun c => UInt8.ofNat c.toNat)

/-- A call on the table. -/
inductive EnvOp where
  | set (name value : CStr)
  | assign (word : CStr)
  | unset (name : CStr)

/-- The call, with `none` where it returns `-1`. -/
def EnvOp.run (env : Env) : EnvOp → Option Env
  | .set name value => envSet env name value
  | .assign word => envSetAssignment env word
  | .unset name => envUnset env name

/-- The table after a call: one that fails changes nothing. -/
def EnvOp.after (env : Env) (op : EnvOp) : Env := (op.run env).getD env

/-- The call of `env_set` that is made, if there is one. -/
def EnvOp.call : EnvOp → Option (CStr × CStr)
  | .set name value => some (name, value)
  | .assign word =>
    let nlen := envAssignmentNameLen word.bytes
    if nlen = 0 then none
    else some ((word.take nlen).take (maxEnvName - 1), word.drop (nlen + 1))
  | .unset _ => none

/-! ### Defaults -/

/-- `env_set` on two texts of the source. -/
def EnvOp.default (name value : String) : EnvOp := .set (.ofText name) (.ofText value)

/-- `env_init`, after it has cleared the table. -/
def envInit : List EnvOp :=
  [.default "PATH" "/usr/local/bin:/usr/bin:/bin:/",
    .default "HOME" "/root",
    .default "TERM" "xterm",
    .default "SHELL" "/bin/bash",
    .default "LANG" "C",
    .default "LC_ALL" "C",
    .default "PYTHONUTF8" "1",
    .default "PYTHONIOENCODING" "utf-8",
    .default "PYTHONHOME" "/",
    .default "PYTHONPATH" "/lib/python3.12:/lib/python3.12/site-packages",
    .default "PYTHONDONTWRITEBYTECODE" "1"]

/-- `strstr(s, t) != 0`. -/
def strstr (s t : List Byte) : Bool := s.tails.any t.isPrefixOf

/-- The value `env_enable_gpu_defaults` gives `LD_LIBRARY_PATH`, if it sets it. -/
def libraryPath (env : Env) : List EnvOp :=
  match envGet env (CStr.ofText "LD_LIBRARY_PATH").bytes with
  | some cur =>
    if cur.bytes ≠ [] then
      if strstr cur.bytes (CStr.ofText "/usr/lib/wsl/lib").bytes then []
      else
        -- `snprintf(joined, sizeof(joined), "/usr/lib/wsl/lib:%s", cur)`
        [.set (.ofText "LD_LIBRARY_PATH")
          (.ofBytes (((CStr.ofText "/usr/lib/wsl/lib:").bytes ++ cur.bytes).take (maxEnvValue - 1)))]
    else [libraryDefault]
  | none => [libraryDefault]
where
  /-- The path where none was set. -/
  libraryDefault : EnvOp := .default "LD_LIBRARY_PATH"
    "/usr/lib/wsl/lib:/lib:/usr/lib:/lib/x86_64-linux-gnu:/usr/lib/x86_64-linux-gnu"

/-- `env_enable_gpu_defaults`, by which of the two devices can be opened. -/
def envEnableGpuDefaults (dxg render : Bool) (env : Env) : List EnvOp :=
  if dxg then
    let ops : List EnvOp := [.default "LIBGL_ALWAYS_SOFTWARE" "0",
      .default "GALLIUM_DRIVER" "d3d12",
      .default "MESA_D3D12_DEFAULT_ADAPTER_NAME" "NVIDIA",
      .default "LIBGL_DRIVERS_PATH" "/lib/dri"]
    ops ++ libraryPath (ops.foldl EnvOp.after env)
  else if render then
    [.default "LIBGL_ALWAYS_SOFTWARE" "0",
      .default "GALLIUM_DRIVER" "virgl",
      .default "LIBGL_DRIVERS_PATH" "/lib/dri"]
  else
    [.default "LIBGL_ALWAYS_SOFTWARE" "1",
      .unset (.ofText "GALLIUM_DRIVER"),
      .unset (.ofText "MESA_D3D12_DEFAULT_ADAPTER_NAME")]

/-- `env_enable_gui_session`. -/
def envEnableGuiSession (dxg render : Bool) (env : Env) : List EnvOp :=
  let ops : List EnvOp := [.default "HOME" "/root",
    .default "PATH" "/usr/local/bin:/usr/bin:/bin:/",
    .default "TERM" "dumb",
    .default "PS1" "\\w# ",
    .default "XDG_RUNTIME_DIR" "/tmp",
    .default "XDG_CACHE_HOME" "/tmp/.cache",
    .default "WAYLAND_DISPLAY" "wayland-0",
    .default "GDK_BACKEND" "wayland",
    .default "GDK_GL" "gles"]
  ops ++ envEnableGpuDefaults dxg render (ops.foldl EnvOp.after env) ++
    [.default "EGL_PLATFORM" "wayland",
      .default "XCURSOR_PATH" "/share/icons",
      .default "XCURSOR_THEME" "Adwaita",
      .default "SSL_CERT_FILE" "/share/netsurf/ca-bundle",
      .default "XV6_GUI_SESSION" "wayland"]

/-- The calls that `main` makes before it reads a line. -/
def startup (dxg render gui : Bool) : List EnvOp :=
  let ops := envInit ++ envEnableGpuDefaults dxg render (envInit.foldl EnvOp.after .cleared)
  if gui then ops ++ envEnableGuiSession dxg render (ops.foldl EnvOp.after .cleared) else ops

/-! ### Sessions -/

/-- The calls that `run_line` makes for a line. -/
def LineForm.ops : LineForm → List EnvOp
  | .assignments words => words.map .assign
  | .exportVar name value => [.set name value]
  | .unset name => [.unset name]
  | _ => []

/-- The calls of a session: the defaults, and then those for each line. -/
def session (dxg render gui : Bool) (lines : List CStr) : List EnvOp :=
  startup dxg render gui ++ lines.flatMap fun buf => (lineForm buf).ops

/-- At most one slot in use has a name. -/
def Env.Distinct (env : Env) : Prop := (Slots.keys EnvVar.key env.vars).Nodup

instance (env : Env) : Decidable env.Distinct :=
  inferInstanceAs (Decidable (Slots.keys EnvVar.key env.vars).Nodup)

/-- Where the call of `env_set` finds a slot, `env_get` gives the value after it, cut to
255 bytes. -/
def EnvOp.ReadsBack (env : Env) (op : EnvOp) : Prop :=
  ∀ name value, op.call = some (name, value) → ∀ env', op.run env = some env' →
    envGet env' name.bytes = some (value.take (maxEnvValue - 1))

/-- The table is a finite map before and after each call of a row. -/
def FiniteMap : Env → List EnvOp → Prop
  | env, [] => env.Distinct
  | env, op :: ops => env.Distinct ∧ op.ReadsBack env ∧ FiniteMap (op.after env) ops

/-- Every slot is in use. -/
def Env.Full (env : Env) : Prop := ∀ v ∈ env.vars, v.used = true

/-- While a slot is free, every `env_set` of a row of calls has a name shorter than 64
bytes. -/
def ShortNames : Env → List EnvOp → Prop
  | _, [] => True
  | env, op :: ops =>
    (∀ name value, op = .set name value → ¬env.Full → name.bytes.length < maxEnvName) ∧
      ShortNames (op.after env) ops

/-! ### A call -/

section Call

variable {env env' : Env} {name value : CStr}

theorem run_eq_envSet {op : EnvOp} (h : op.call = some (name, value)) :
    op.run env = envSet env name value := by
  cases op with
  | set n v =>
    obtain ⟨rfl, rfl⟩ := Prod.mk.inj (Option.some.inj h)
    rfl
  | assign w =>
    simp only [EnvOp.call] at h
    split_ifs at h with hlen
    obtain ⟨rfl, rfl⟩ := Prod.mk.inj (Option.some.inj h)
    rw [EnvOp.run, envSetAssignment, if_neg hlen]
  | unset n => cases h

theorem EnvVar.key_length_lt {v : EnvVar} {k : List Byte} (h : v.key = some k) :
    k.length < maxEnvName := by
  rw [EnvVar.key] at h
  split_ifs at h
  exact Option.some.inj h ▸ v.name_lt

/-- No slot has a name of 64 bytes. -/
theorem envGet_long {k : List Byte} (h : maxEnvName ≤ k.length) : envGet env k = none := by
  rw [envGet_eq, Slots.lookup_eq_none_iff.2, Option.map_none]
  intro hk
  obtain ⟨v, -, hv⟩ := List.mem_filterMap.1 hk
  exact absurd (EnvVar.key_length_lt hv) (Nat.not_lt.2 h)

/-- A name of 64 bytes finds a slot exactly where one is free. -/
theorem exists_envSet_iff_of_long (h : maxEnvName ≤ name.bytes.length) :
    (∃ env', envSet env name value = some env') ↔ ¬env.Full := by
  have hnone : ¬(env.vars.any fun v => v.isNamed name.bytes) = true := by
    rw [any_isNamed_iff, ← Slots.lookup_eq_none_iff]
    exact Option.map_eq_none_iff.1 ((envGet_eq env name.bytes).symm.trans (envGet_long h))
  have hfree : (env.vars.any fun v => !v.used) = true ↔ ¬env.Full := by
    rw [← Bool.not_eq_false, List.any_eq_false, Env.Full]
    simp
  have hset : envSet env name value =
      env.updateFirst (fun v => !v.used) fun _ => .make name value := by
    rw [envSet, Env.updateFirst, if_neg hnone]
    rfl
  rw [hset, Env.updateFirst, ← hfree]
  constructor
  · rintro ⟨env', hrun⟩
    by_contra hnot
    rw [if_neg hnot] at hrun
    cases hrun
  · intro hany
    exact ⟨_, if_pos hany⟩

/-- A short name that is set keeps the table a map. -/
theorem distinct_envSet (hd : env.Distinct) (hname : name.bytes.length < maxEnvName)
    (h : envSet env name value = some env') : env'.Distinct := by
  rw [Env.Distinct]
  rcases vars_envSet h with ⟨-, hvars⟩ | ⟨hmem, hfree, hvars⟩
  · rw [hvars, Slots.keys_update fun v hv => (v.key_setValue value).trans hv]
    exact hd
  · rw [hvars, (Slots.keys_fill (EnvVar.key_make hname value) hfree).nodup_iff]
    exact List.nodup_cons.2 ⟨hmem, hd⟩

theorem vars_envUnset (h : envUnset env name = some env') : env'.vars =
    Slots.update EnvVar.key env.vars (some name.bytes) fun v => { v with used := false } := by
  rw [envUnset, Env.updateFirst] at h
  split_ifs at h
  rw [← Option.some.inj h]
  simp only [Slots.update, EnvVar.isNamed_eq]

theorem distinct_envUnset (hd : env.Distinct) (h : envUnset env name = some env') :
    env'.Distinct := by
  rw [Env.Distinct, vars_envUnset h]
  exact Slots.nodup_clear (fun _ _ => rfl) hd

/-- A name that an assignment word supplies is short. -/
theorem short_of_assign {w : CStr} (h : (EnvOp.assign w).call = some (name, value)) :
    name.bytes.length < maxEnvName := by
  simp only [EnvOp.call] at h
  split_ifs at h
  rw [← (Prod.mk.inj (Option.some.inj h)).1, CStr.take_bytes, List.length_take]
  exact (Nat.min_le_left _ _).trans_lt (by decide)

/-- **What a call does**: it keeps the table a map and reads back unless it sets a name
that is too long. -/
theorem run_spec {op : EnvOp} (hd : env.Distinct)
    (hshort : ∀ name value, op = .set name value → ¬env.Full → name.bytes.length < maxEnvName) :
    (op.after env).Distinct ∧ op.ReadsBack env := by
  have hcall : ∀ name value, op.call = some (name, value) → ∀ env', op.run env = some env' →
      name.bytes.length < maxEnvName := by
    intro name value hcall env' hrun
    cases op with
    | set n v =>
      obtain ⟨rfl, rfl⟩ := Prod.mk.inj (Option.some.inj hcall)
      by_contra hlong
      have hfull := (exists_envSet_iff_of_long (Nat.not_lt.1 hlong)).1 ⟨env', hrun⟩
      exact hlong (hshort n v rfl hfull)
    | assign w => exact short_of_assign hcall
    | unset n => cases hcall
  constructor
  · rw [EnvOp.after]
    cases hrun : op.run env with
    | none => exact hd
    | some env' =>
      cases hc : op.call with
      | some nv =>
        exact distinct_envSet hd (hcall _ _ hc env' hrun) ((run_eq_envSet hc).symm.trans hrun)
      | none =>
        cases op with
        | set n v => cases hc
        | assign w =>
          simp only [EnvOp.call] at hc
          split_ifs at hc with hlen
          rw [EnvOp.run, envSetAssignment, if_pos hlen] at hrun
          cases hrun
        | unset n => exact distinct_envUnset hd hrun
  · intro name value hc env' hrun
    have hget := envGet_envSet (hcall name value hc env' hrun) ((run_eq_envSet hc).symm.trans hrun)
    rw [hget name.bytes, if_pos rfl]

end Call

/-! ### Runs -/

/-- **When a row of calls keeps the table a finite map**: exactly when every name that is
set is shorter than 64 bytes. -/
theorem finiteMap_iff {env : Env} (hd : env.Distinct) (ops : List EnvOp) :
    FiniteMap env ops ↔ ShortNames env ops := by
  induction ops generalizing env with
  | nil => exact ⟨fun _ => trivial, fun _ => hd⟩
  | cons op ops ih =>
    rw [FiniteMap, ShortNames]
    constructor
    · rintro ⟨-, hreads, hrest⟩
      refine ⟨?_, (ih ?_).1 hrest⟩
      · rintro name value rfl hfree
        by_contra hlong
        obtain ⟨env', hrun⟩ := (exists_envSet_iff_of_long (Nat.not_lt.1 hlong)).2 hfree
        have hget := hreads name value rfl env' hrun
        rw [envGet_long (Nat.not_lt.1 hlong)] at hget
        exact absurd hget nofun
      · cases ops with
        | nil => exact hrest
        | cons _ _ => exact hrest.1
    · rintro ⟨hshort, hrest⟩
      obtain ⟨hd', hreads⟩ := run_spec hd hshort
      exact ⟨hd, hreads, (ih hd').2 hrest⟩

theorem distinct_cleared : Env.cleared.Distinct := by
  have hkeys : Slots.keys EnvVar.key Env.cleared.vars = [] := Slots.keys_replicate rfl _
  rw [Env.Distinct, hkeys]
  exact List.nodup_nil

theorem shortNames_append {env : Env} (ops ops' : List EnvOp) :
    ShortNames env (ops ++ ops') ↔
      ShortNames env ops ∧ ShortNames (ops.foldl EnvOp.after env) ops' := by
  induction ops generalizing env with
  | nil => exact ⟨fun h => ⟨trivial, h⟩, fun h => h.2⟩
  | cons op ops ih => rw [List.cons_append, ShortNames, ShortNames, ih, and_assoc, List.foldl_cons]

theorem shortNames_of_forall {env : Env} {ops : List EnvOp}
    (h : ∀ name value, .set name value ∈ ops → name.bytes.length < maxEnvName) :
    ShortNames env ops := by
  induction ops generalizing env with
  | nil => trivial
  | cons op ops ih =>
    constructor
    · rintro name value rfl -
      exact h name value List.mem_cons_self
    · exact ih fun name value hmem => h name value (List.mem_cons_of_mem op hmem)

/-! ### The defaults -/

/-- A row of calls that sets short names of the source. -/
def Defaults (ops : List EnvOp) : Prop :=
  ∀ name value, .set name value ∈ ops → name.bytes.length < maxEnvName

theorem Defaults.append {ops ops' : List EnvOp} (h : Defaults ops) (h' : Defaults ops') :
    Defaults (ops ++ ops') := fun name value hmem =>
  (List.mem_append.1 hmem).elim (h name value) (h' name value)

/-- The name that a call sets is shorter than 64 bytes. -/
def EnvOp.short : EnvOp → Bool
  | .set name _ => name.bytes.length < maxEnvName
  | _ => true

theorem defaults_of_all {ops : List EnvOp} (h : ops.all EnvOp.short = true) : Defaults ops :=
  fun _ _ hmem => of_decide_eq_true (List.all_eq_true.1 h _ hmem)

theorem defaults_libraryPath (env : Env) : Defaults (libraryPath env) := by
  rw [libraryPath]
  split
  · split_ifs
    · exact defaults_of_all rfl
    · exact defaults_of_all rfl
    · exact defaults_of_all rfl
  · exact defaults_of_all rfl

theorem defaults_envEnableGpuDefaults (dxg render : Bool) (env : Env) :
    Defaults (envEnableGpuDefaults dxg render env) := by
  rw [envEnableGpuDefaults]
  split_ifs
  · exact (defaults_of_all rfl).append (defaults_libraryPath _)
  · exact defaults_of_all rfl
  · exact defaults_of_all rfl

theorem defaults_startup (dxg render gui : Bool) : Defaults (startup dxg render gui) := by
  have hinit : Defaults (envInit ++ envEnableGpuDefaults dxg render
      (envInit.foldl EnvOp.after .cleared)) :=
    (defaults_of_all rfl).append (defaults_envEnableGpuDefaults dxg render _)
  rw [startup]
  split_ifs
  · refine hinit.append (((defaults_of_all rfl).append ?_).append (defaults_of_all rfl))
    exact defaults_envEnableGpuDefaults dxg render _
  · exact hinit

/-! ### Command lines -/

/-- While a slot is free, every `export` has a name shorter than 64 bytes. -/
def ShortExports : Env → List CStr → Prop
  | _, [] => True
  | env, buf :: bufs =>
    (∀ name value, lineForm buf = .exportVar name value → ¬env.Full →
      name.bytes.length < maxEnvName) ∧
      ShortExports ((lineForm buf).ops.foldl EnvOp.after env) bufs

/-- What `run_line` leaves in the table is what its calls leave there. -/
theorem env_runLine {env env' : Env} {pid : ℕ} {interactive : Bool} {buf : CStr} {ret : ℤ}
    {did : List Action} (h : runLine env pid interactive buf = .returned ret env' did) :
    env' = (lineForm buf).ops.foldl EnvOp.after env := by
  have hassign : ∀ (words : List CStr) (env : Env), (runAssignments env words).1 =
      (words.map EnvOp.assign).foldl EnvOp.after env := by
    intro words
    induction words with
    | nil => exact fun _ => rfl
    | cons w words ih =>
      intro env
      rw [runAssignments, List.map_cons, List.foldl_cons, EnvOp.after, EnvOp.run]
      cases envSetAssignment env w with
      | some env' => exact ih env'
      | none => exact ih env
  rw [runLine] at h
  cases hf : lineForm buf with
  | assignments words =>
    rw [hf] at h
    exact (Turn.returned.inj h).2.1.symm.trans (hassign words env)
  | exportVar name value =>
    rw [hf] at h
    dsimp only at h
    rw [LineForm.ops, List.foldl_cons, List.foldl_nil, EnvOp.after, EnvOp.run]
    cases hset : envSet env name value with
    | some env'' =>
      rw [hset] at h
      exact (Turn.returned.inj h).2.1.symm
    | none =>
      rw [hset] at h
      exact (Turn.returned.inj h).2.1.symm
  | unset name =>
    rw [hf] at h
    exact (Turn.returned.inj h).2.1.symm
  | cd path =>
    rw [hf] at h
    dsimp only at h
    split_ifs at h <;> exact (Turn.returned.inj h).2.1.symm
  | echo text =>
    rw [hf] at h
    dsimp only at h
    split_ifs at h <;> exact (Turn.returned.inj h).2.1.symm
  | external line =>
    rw [hf] at h
    dsimp only at h
    rw [runExternal] at h
    split_ifs at h
    · exact (Turn.returned.inj h).2.1.symm
    · split at h <;> first | exact (Turn.returned.inj h).2.1.symm | cases h
  | _ => rw [hf] at h; exact (Turn.returned.inj h).2.1.symm

theorem shortNames_ops {env : Env} (form : LineForm) : ShortNames env form.ops ↔
    ∀ name value, form = .exportVar name value → ¬env.Full →
      name.bytes.length < maxEnvName := by
  cases form with
  | exportVar n v =>
    constructor
    · rintro ⟨hshort, -⟩ name value heq
      obtain ⟨rfl, rfl⟩ := LineForm.exportVar.inj heq
      exact hshort n v rfl
    · refine fun h => ⟨?_, trivial⟩
      rintro name value heq
      obtain ⟨rfl, rfl⟩ := EnvOp.set.inj heq
      exact h n v rfl
  | assignments words =>
    refine ⟨fun _ => nofun, fun _ => shortNames_of_forall fun name value hmem => ?_⟩
    obtain ⟨w, -, hw⟩ := List.mem_map.1 hmem
    exact absurd hw nofun
  | unset name => exact ⟨fun _ => nofun, fun _ => ⟨nofun, trivial⟩⟩
  | _ => exact ⟨fun _ => nofun, fun _ => trivial⟩

theorem shortNames_lines {env : Env} (lines : List CStr) :
    ShortNames env (lines.flatMap fun buf => (lineForm buf).ops) ↔ ShortExports env lines := by
  induction lines generalizing env with
  | nil => exact Iff.rfl
  | cons buf bufs ih =>
    rw [List.flatMap_cons, shortNames_append, ShortExports, shortNames_ops, ih]

/-- **When the table is a finite map throughout a session**: whatever the defaults and the
command lines are, at most one slot in use has a name and each name that was set reads
back, exactly when every `export` that comes while a slot is free has a name shorter than
64 bytes. -/
theorem session_finiteMap_iff (dxg render gui : Bool) (lines : List CStr) :
    FiniteMap .cleared (session dxg render gui lines) ↔
      ShortExports ((startup dxg render gui).foldl EnvOp.after .cleared) lines := by
  rw [finiteMap_iff distinct_cleared, session, shortNames_append, shortNames_lines]
  exact and_iff_right (shortNames_of_forall (defaults_startup dxg render gui))

/-- `export` of a name of 64 bytes. -/
def longExport : CStr :=
  ⟨[101, 120, 112, 111, 114, 116, 32] ++ List.replicate 64 65 ++ [61, 49], by decide⟩

/-- **A name of 64 bytes that is exported twice** takes two slots, which have one name, and
it reads back from neither. -/
theorem session_finiteMap_fails :
    let env := (session false false false [longExport, longExport]).foldl EnvOp.after .cleared
    ¬FiniteMap .cleared (session false false false [longExport, longExport]) ∧
      ¬env.Distinct ∧ envGet env (List.replicate 64 65) = none := by
  have hline : lineForm longExport =
      .exportVar ⟨List.replicate 64 65, by decide⟩ ⟨[49], by decide⟩ := rfl
  refine ⟨?_, by decide, rfl⟩
  rw [finiteMap_iff distinct_cleared, session, shortNames_append, shortNames_lines]
  rintro ⟨-, hshort, -⟩
  have hfree : ¬((startup false false false).foldl EnvOp.after .cleared).Full := by
    intro hfull
    have hslot : ∃ v ∈ ((startup false false false).foldl EnvOp.after .cleared).vars,
        (!v.used) = true := List.any_eq_true.1 rfl
    obtain ⟨v, hv, hnot⟩ := hslot
    rw [hfull v hv] at hnot
    exact absurd hnot nofun
  exact absurd (hshort _ _ hline hfree) (by decide)

end Shell
end V6User
