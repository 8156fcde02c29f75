import QubitWarden.Proofs.Config.Variable

/-!
# The configuration of an environment

The variables are read one after the other over the defaults. Which environments are accepted, which
configuration they give, and what is reported of the others is told by the grammars of the variables
alone.

* `readEach`: the variables of a list read in order (`ofEnvironment_eq_readEach`).
* `Overlays`: a configuration with the fields of the variables that are set in place of its own.
* `readEach_of_accepted`, `readEach_of_refused`: reading gives such a configuration, or the fault of
  the first variable that is ill formed.
* `environment_exact`: so an environment is read exactly by the grammars.
-/

namespace QubitWarden.Config

variable {env : Environment} {v w : Variable} {vs : List Variable} {c d : Config} {text : String}

/-- The variable is not set, or its text is well formed. -/
def Accepts (env : Environment) (v : Variable) : Prop :=
  ∀ text, env v.name = some text → v.kind.WellFormed text

instance decidableAccepts (env : Environment) (v : Variable) : Decidable (Accepts env v) :=
  decidable_of_iff ((env v.name).all (fun text => v.kind.WellFormed text) = true) (by
    simp [Accepts, Option.all_eq_true])

/-- The variables of a list, read in order over a configuration. -/
def readEach (env : Environment) (vs : List Variable) (c : Config) : Except ConfigError Config :=
  vs.foldlM (fun c v => override env v.name (v.kind.parse v.name) v.assign c) c

theorem ofEnvironment_eq_readEach (env : Environment) :
    ofEnvironment env = readEach env Variable.all {} := by
  simp only [readEach, Variable.all, List.foldlM_cons, List.foldlM_nil, bind_pure]
  rfl

/-- `d` is `c` with the values that the texts of the variables stand for in place of its own, as far
as the variables are set. -/
structure Overlays (env : Environment) (vs : List Variable) (c d : Config) : Prop where
  present : ∀ v ∈ vs, ∀ text, env v.name = some text →
    ∃ a, v.kind.Stands text a ∧ v.field d = some a
  kept : ∀ v, v ∉ vs ∨ env v.name = none → v.field d = v.field c
  bounds : d.bounds = c.bounds

theorem Overlays.refl (env : Environment) (c : Config) : Overlays env [] c c where
  present _ hv := absurd hv List.not_mem_nil
  kept _ _ := rfl
  bounds := rfl

theorem Overlays.cons {e : Config} (hfirst : Overlays env [v] c d) (hrest : Overlays env vs d e)
    (hv : v ∉ vs) : Overlays env (v :: vs) c e where
  present w hw text htext := by
    obtain rfl | hw := List.mem_cons.1 hw
    · rw [hrest.kept w (.inl hv)]
      exact hfirst.present w List.mem_cons_self text htext
    · exact hrest.present w hw text htext
  kept w hw := by
    have hfirstKept : w ∉ [v] ∨ env w.name = none :=
      hw.imp_left fun h hwv => h (List.mem_cons.2 (.inl (List.mem_singleton.1 hwv)))
    have hrestKept : w ∉ vs ∨ env w.name = none := hw.imp_left fun h hwvs => h (.tail v hwvs)
    rw [hrest.kept w hrestKept, hfirst.kept w hfirstKept]
  bounds := hrest.bounds.trans hfirst.bounds

/-! ## One variable -/

theorem overlays_unset (h : env v.name = none) (c : Config) : Overlays env [v] c c where
  present w hw text htext := by
    obtain rfl := List.mem_singleton.1 hw
    rw [h] at htext
    cases htext
  kept _ _ := rfl
  bounds := rfl

theorem overlays_assign {a : v.kind.Value} (htext : env v.name = some text)
    (ha : v.kind.Stands text a) (c : Config) : Overlays env [v] c (v.assign a c) where
  present w hw text' htext' := by
    obtain rfl := List.mem_singleton.1 hw
    rw [htext] at htext'
    obtain rfl := Option.some.inj htext'
    exact ⟨a, ha, Variable.field_assign a c⟩
  kept w hw := by
    refine Variable.field_assign_of_ne (fun he => ?_) a c
    obtain hw | hw := hw
    · exact hw (List.mem_singleton.2 he)
    · rw [he, htext] at hw
      cases hw
  bounds := Variable.bounds_assign a c

theorem override_of_accepted (h : Accepts env v) (c : Config) :
    ∃ d, override env v.name (v.kind.parse v.name) v.assign c = .ok d ∧ Overlays env [v] c d := by
  unfold override
  cases htext : env v.name with
  | none => exact ⟨c, rfl, overlays_unset htext c⟩
  | some text =>
    obtain ⟨a, ha⟩ := Kind.wellFormed_iff.1 (h text htext)
    have hparse := ((Kind.reads_parse v.kind v.name text).ok_iff a).2 ha
    refine ⟨v.assign a c, ?_, overlays_assign htext ha c⟩
    simp only [hparse]
    rfl

theorem override_of_refused (h : ¬ Accepts env v) :
    ∃ text, env v.name = some text ∧
      ∀ c, override env v.name (v.kind.parse v.name) v.assign c =
        .error (v.kind.fault v.name text) := by
  simp only [Accepts, Classical.not_forall] at h
  obtain ⟨text, htext, hill⟩ := h
  have hparse := (Kind.reads_parse v.kind v.name text).eq_error fun a ha =>
    hill (Kind.wellFormed_iff.2 ⟨a, ha⟩)
  refine ⟨text, htext, fun c => ?_⟩
  simp only [override, htext, hparse]
  rfl

/-! ## One after the other -/

theorem readEach_of_accepted (h : ∀ v ∈ vs, Accepts env v) (hvs : vs.Nodup) (c : Config) :
    ∃ d, readEach env vs c = .ok d ∧ Overlays env vs c d := by
  induction vs generalizing c with
  | nil => exact ⟨c, rfl, .refl env c⟩
  | cons v rest ih =>
    obtain ⟨hv, hrest⟩ := List.forall_mem_cons.1 h
    obtain ⟨hnew, hnodup⟩ := List.nodup_cons.1 hvs
    obtain ⟨d, hd, hfirst⟩ := override_of_accepted hv c
    obtain ⟨e, he, hothers⟩ := ih hrest hnodup d
    refine ⟨e, ?_, hfirst.cons hothers hnew⟩
    rw [readEach, List.foldlM_cons, hd]
    exact he

theorem readEach_of_refused (h : vs.find? (fun v => ¬ Accepts env v) = some v) (c : Config) :
    ∃ text, env v.name = some text ∧ readEach env vs c = .error (v.kind.fault v.name text) := by
  induction vs generalizing c with
  | nil => cases h
  | cons w rest ih =>
    by_cases hw : Accepts env w
    · rw [List.find?_cons_of_neg (by simpa using hw)] at h
      obtain ⟨d, hd, -⟩ := override_of_accepted hw c
      obtain ⟨text, htext, hrest⟩ := ih h d
      refine ⟨text, htext, ?_⟩
      rw [readEach, List.foldlM_cons, hd]
      exact hrest
    · rw [List.find?_cons_of_pos (by simpa using hw)] at h
      obtain rfl := Option.some.inj h
      obtain ⟨text, htext, hfault⟩ := override_of_refused hw
      refine ⟨text, htext, ?_⟩
      rw [readEach, List.foldlM_cons, hfault]
      rfl

/-! ## The environment -/

theorem Overlays.accepts (h : Overlays env Variable.all c d) (v : Variable) : Accepts env v := by
  intro text htext
  obtain ⟨a, ha, -⟩ := h.present v (Variable.mem_all v) text htext
  exact Kind.wellFormed_iff.2 ⟨a, ha⟩

theorem Overlays.unique {e : Config} (hd : Overlays env Variable.all c d)
    (he : Overlays env Variable.all c e) : d = e := by
  refine Variable.ext_field (fun v => ?_) (hd.bounds.trans he.bounds.symm)
  cases htext : env v.name with
  | none => rw [hd.kept v (.inr htext), he.kept v (.inr htext)]
  | some text =>
    obtain ⟨a, ha, hfield⟩ := hd.present v (Variable.mem_all v) text htext
    obtain ⟨b, hb, hfield'⟩ := he.present v (Variable.mem_all v) text htext
    rw [hfield, hfield', Kind.Stands.eq ha hb]

theorem ofEnvironment_of_accepted (h : ∀ v, Accepts env v) :
    ∃ c, ofEnvironment env = .ok c ∧ Overlays env Variable.all {} c := by
  rw [ofEnvironment_eq_readEach]
  exact readEach_of_accepted (fun v _ => h v) Variable.nodup_all {}

theorem ofEnvironment_of_refused
    (h : Variable.all.find? (fun v => ¬ Accepts env v) = some v) :
    ∃ text, env v.name = some text ∧ ofEnvironment env = .error (v.kind.fault v.name text) := by
  rw [ofEnvironment_eq_readEach]
  exact readEach_of_refused h {}

theorem accepts_of_no_first (h : Variable.all.find? (fun v => ¬ Accepts env v) = none)
    (v : Variable) : Accepts env v := by
  simpa using List.find?_eq_none.1 h v (Variable.mem_all v)

/-- **An environment gives the defaults with the values that its texts stand for.** -/
theorem ofEnvironment_eq_ok_iff :
    ofEnvironment env = .ok c ↔ Overlays env Variable.all {} c := by
  constructor
  · intro h
    cases hfirst : Variable.all.find? (fun v => ¬ Accepts env v) with
    | none =>
      obtain ⟨d, hd, hoverlays⟩ := ofEnvironment_of_accepted (accepts_of_no_first hfirst)
      rw [hd] at h
      exact Except.ok.inj h ▸ hoverlays
    | some v =>
      obtain ⟨text, -, herror⟩ := ofEnvironment_of_refused hfirst
      rw [herror] at h
      cases h
  · intro h
    obtain ⟨d, hd, hoverlays⟩ := ofEnvironment_of_accepted h.accepts
    rw [hd, hoverlays.unique h]

/-- **What is reported is the fault of the first ill-formed variable.** -/
theorem ofEnvironment_eq_error_iff {e : ConfigError} :
    ofEnvironment env = .error e ↔
      ∃ v text, Variable.all.find? (fun v => ¬ Accepts env v) = some v ∧
        env v.name = some text ∧ e = v.kind.fault v.name text := by
  constructor
  · intro h
    cases hfirst : Variable.all.find? (fun v => ¬ Accepts env v) with
    | none =>
      obtain ⟨d, hd, -⟩ := ofEnvironment_of_accepted (accepts_of_no_first hfirst)
      rw [hd] at h
      cases h
    | some v =>
      obtain ⟨text, htext, herror⟩ := ofEnvironment_of_refused hfirst
      rw [herror] at h
      exact ⟨v, text, rfl, htext, (Except.error.inj h).symm⟩
  · rintro ⟨v, text, hfirst, htext, rfl⟩
    obtain ⟨text', htext', herror⟩ := ofEnvironment_of_refused hfirst
    rw [htext] at htext'
    obtain rfl := Option.some.inj htext'
    exact herror

theorem ofEnvironment_congr {other : Environment}
    (h : ∀ v : Variable, other v.name = env v.name) : ofEnvironment other = ofEnvironment env := by
  have hoverride (v : Variable) (c : Config) :
      override other v.name (v.kind.parse v.name) v.assign c =
        override env v.name (v.kind.parse v.name) v.assign c := by
    rw [override, override, h]
  simp only [ofEnvironment_eq_readEach, readEach, hoverride]

/-- A configuration is read back from texts of its values, with white space around them or not. -/
theorem ofEnvironment_of_rendered (hbounds : c.bounds = bounds {})
    (h : ∀ v : Variable, ∃ a text, v.field c = some a ∧ v.kind.Renders text a ∧
      env v.name = some text) : ofEnvironment env = .ok c := by
  refine ofEnvironment_eq_ok_iff.2 ⟨fun v _ text htext => ?_, fun v hv => ?_, hbounds⟩
  · obtain ⟨a, text', hfield, hrenders, htext'⟩ := h v
    rw [htext] at htext'
    obtain rfl := Option.some.inj htext'
    exact ⟨a, Kind.renders_iff.1 hrenders, hfield⟩
  · obtain ⟨a, text, -, -, htext⟩ := h v
    obtain hv | hv := hv
    · exact absurd (Variable.mem_all v) hv
    · rw [htext] at hv
      cases hv

/-- **Variables are read exactly by their grammars.** An environment gives a configuration exactly
if each variable that is set is well formed; this is the default one with the values that the texts
stand for, and nothing else changed. Any other environment has the fault of its first ill-formed
variable reported. What else is set has no influence. And every value has a text, whatever white
space is put around it and in any spelling, from which it is read back. -/
theorem environment_exact (env : Environment) :
    ((∃ c, ofEnvironment env = .ok c) ↔
        ∀ (v : Variable) (text : String), env v.name = some text → v.kind.WellFormed text) ∧
      (∀ c, ofEnvironment env = .ok c ↔ Overlays env Variable.all {} c) ∧
      (∀ e, ofEnvironment env = .error e ↔
        ∃ v text, Variable.all.find? (fun v => ¬ Accepts env v) = some v ∧
          env v.name = some text ∧ e = v.kind.fault v.name text) ∧
      (∀ other : Environment, (∀ v : Variable, other v.name = env v.name) →
        ofEnvironment other = ofEnvironment env) ∧
      (∀ (v : Variable) (a : v.kind.Value), v.kind.Spells (v.kind.write a) a) ∧
      ∀ c : Config, c.bounds = bounds {} →
        (∀ v : Variable, ∃ a text, v.field c = some a ∧ v.kind.Renders text a ∧
          env v.name = some text) →
        ofEnvironment env = .ok c := by
  refine ⟨⟨?_, fun h => ?_⟩, fun _ => ofEnvironment_eq_ok_iff, fun _ => ofEnvironment_eq_error_iff,
    fun _ => ofEnvironment_congr, fun _ => Kind.spells_write, fun _ => ofEnvironment_of_rendered⟩
  · rintro ⟨c, hc⟩
    exact (ofEnvironment_eq_ok_iff.1 hc).accepts
  · obtain ⟨c, hc, -⟩ := ofEnvironment_of_accepted h
    exact ⟨c, hc⟩

/-- An environment with white space around its texts, letters of either case, a sign and zeros
before a number, the largest words, and a variable that is not read. -/
def respelled : Environment := fun name =>
  [("QK_SIGNING_KEY", "\t00112233445566778899AABBCCDDEEFF00112233445566778899aabbccddeeff\n"),
    ("QK_STRICT_MODE", " Off "), ("QK_POOL_SIZE", "+0016"), ("QK_DEFAULT_QUOTA", "4294967295"),
    ("QK_TOKEN_TTL_SECS", "18446744073709551615"), ("QK_MAX_DELEGATION_DEPTH", "0"),
    ("QK_MERKLE_PADDING", "SENTINEL\u3000"), ("QK_LOG_LEVEL", "debug")].lookup name

/-- The configuration that it gives. -/
def respelledConfig : Config where
  key := some ⟨⟨(List.replicate 2 [0x00, 0x11, 0x22, 0x33, 0x44, 0x55, 0x66, 0x77, 0x88, 0x99, 0xaa,
    0xbb, 0xcc, 0xdd, 0xee, 0xff]).flatten, rfl⟩⟩
  mediator := { strict := false }
  allocator := { poolSize := 16, defaultMaxQubits := 4294967295 }
  tokens := { defaultTtl := 18446744073709551615, maxDepth := 0 }
  padding := .sentinel

/-- The same with a number that is too large by one, and a padding that is unknown. -/
def oversized : Environment := fun name =>
  let others := [("QK_POOL_SIZE", " 4294967296"), ("QK_MERKLE_PADDING", "none")]
  (others.lookup name).or (respelled name)

theorem environment_exact_respelled :
    ofEnvironment respelled = .ok respelledConfig ∧
      Overlays respelled Variable.all {} respelledConfig ∧
      ofEnvironment (fun name => if name = "QK_LOG_LEVEL" then none else respelled name) =
        .ok respelledConfig ∧
      ofEnvironment oversized =
        .error (.unreadableSetting (.notNumber "QK_POOL_SIZE" " 4294967296")) := by
  obtain ⟨-, hok, -, hcongr, -, hrendered⟩ := environment_exact respelled
  have hread : ofEnvironment respelled = .ok respelledConfig := by
    refine hrendered respelledConfig rfl fun v => ?_
    have hparse : ∃ a text, v.field respelledConfig = some a ∧
        v.kind.parse v.name text = .ok a ∧ respelled v.name = some text := by
      cases v <;> refine ⟨_, _, rfl, ?_, rfl⟩ <;> rfl
    obtain ⟨a, text, hfield, hparse, htext⟩ := hparse
    have hstands := ((Kind.reads_parse _ _ _).ok_iff a).1 hparse
    exact ⟨a, text, hfield, Kind.renders_iff.2 hstands, htext⟩
  refine ⟨hread, (hok _).1 hread, ?_, ?_⟩
  · rw [hcongr _ fun v => if_neg (by cases v <;> decide), hread]
  · exact ((environment_exact oversized).2.2.1 _).2
      ⟨.poolSize, " 4294967296", by decide +kernel, rfl, rfl⟩

end QubitWarden.Config
