import Mathlib.Logic.Function.Basic
import TickTree.Proofs.Quotients
import TickTree.Proofs.Spellings
/-! Settings from the environment. Whatever bytes the variables are set to, each setting goes by its
own variable, and the ticks of the sample program take some time, but not forever. -/
namespace TickTree.Npc
open Seconds

/-! ### The time of a tick -/

namespace Config
variable (c : Config)

def rest : Float32 := (c.tickMillis % 1000 * 1000000).toFloat32 / 1000000000

theorem unpack_billion : (1000000000 : Float32).toModel.unpack =
    .finite .positive 15625000 6 (by decide) := rfl

theorem rest_bounds : 0 ≤ c.rest ∧ c.rest ≤ 1 ∧ (c.tickMillis % 1000 ≠ 0 → 0 < c.rest) := by
  have hrest : c.rest = (c.tickMillis % 1000 * 1000000).toFloat32 / 1000000000 := rfl
  have hlt : (c.tickMillis % 1000).toNat < 1000 := by
    rw [UInt64.toNat_mod]
    exact Nat.mod_lt _ (by decide)
  generalize c.tickMillis % 1000 = k at hrest hlt
  rw [hrest]
  by_cases hk : k = 0
  · rw [hk]
    exact ⟨by decide +kernel, by decide +kernel, fun h => absurd rfl h⟩
  · have hpos : 0 < k.toNat := Nat.pos_of_ne_zero fun h => hk (UInt64.toNat_inj.mp h)
    have hnanos : (k * 1000000).toNat = k.toNat * 1000000 := by
      rw [UInt64.toNat_mul]
      exact Nat.mod_eq_of_lt (by change _ * 1000000 < _; omega)
    have hone : (1 : UInt64).toFloat32 ≤ (k * 1000000).toFloat32 :=
      toFloat32_mono (UInt64.le_iff_toNat_le.mpr (by rw [hnanos]; change 1 ≤ _; omega))
    have hbillion : (k * 1000000).toFloat32 ≤ (1000000000 : UInt64).toFloat32 :=
      toFloat32_mono (UInt64.le_iff_toNat_le.mpr (by rw [hnanos]; change _ ≤ 1000000000; omega))
    obtain ⟨hrest, hle⟩ := div_bounds hone hbillion (by decide +kernel) unpack_billion (by decide)
    exact ⟨le_of_lt hrest, hle, fun _ => hrest⟩

def utmost : Float32 := (0xffffffffffffffff : UInt64).toFloat32

/-- A tick takes a finite time, and some time unless it is of no milliseconds. -/
theorem delta_bounds : Span c.delta ∧ (c.tickMillis ≠ 0 → 0 < c.delta) := by
  obtain ⟨hrest, hone, hpos⟩ := c.rest_bounds
  have hsum : c.delta = (c.tickMillis / 1000).toFloat32 + c.rest := rfl
  have hwhole : (c.tickMillis / 1000).toFloat32 ≤ utmost :=
    toFloat32_mono (UInt64.le_iff_toNat_le.mpr (Nat.le_of_lt_succ (UInt64.toNat_lt_size _)))
  have hspan : Span (c.tickMillis / 1000).toFloat32 :=
    span_of_le (nonneg_toFloat32 _) hwhole (by decide +kernel)
  have hspan' : Span c.rest := span_of_le hrest hone (by decide +kernel)
  rw [hsum]
  refine ⟨?_, fun hms => ?_⟩
  · have hseconds := add_le_add_right (d := 1) (by decide +kernel) hspan (by decide +kernel) hwhole
    have hthousandths := add_le_add_left hspan hspan' (by decide +kernel) hone
    exact span_of_le (nonneg_add (nonneg_of_span hspan) hspan') (le_trans hthousandths hseconds)
      (by decide +kernel)
  · by_cases hzero : c.tickMillis % 1000 = 0
    · have hsome : (1 : UInt64) ≤ c.tickMillis / 1000 := by
        refine UInt64.le_iff_toNat_le.mpr ?_
        have hne : c.tickMillis.toNat ≠ 0 := fun h => hms (UInt64.toNat_inj.mp h)
        have hmod : c.tickMillis.toNat % 1000 = 0 := by
          have h := congrArg UInt64.toNat hzero
          rwa [UInt64.toNat_mod] at h
        rw [UInt64.toNat_div]
        change 1 ≤ c.tickMillis.toNat / 1000
        omega
      have hpositive : 0 < (c.tickMillis / 1000).toFloat32 :=
        lt_of_lt_of_le (y := (1 : UInt64).toFloat32) (by decide +kernel) (toFloat32_mono hsome)
      exact lt_of_lt_of_le hpositive (le_add (nonneg_of_span hspan) hspan')
    · exact lt_of_lt_of_le (hpos hzero) (le_add_left hspan hspan')

end Config

/-! ### The variables -/

/-- The text reads as a setting of the variable. -/
def Variable.Reads : Variable → String → Prop
  | restart, s => (switch? s).isSome
  | _, s => (number? s).isSome

theorem text?_update (env : Variable → Option ByteArray) (v w : Variable) :
    text? (Function.update env v none) w = if w = v then none else text? env w := by
  rw [text?, Function.update_apply]
  split <;> rfl

theorem bind_eq_none {α : Type} {env : Variable → Option ByteArray} {v : Variable}
    {read? : String → Option α}
    (h : ∀ bytes ∈ env v, ∀ s ∈ String.fromUTF8? bytes, ¬ (read? s).isSome) :
    (text? env v).bind read? = none := by
  refine Option.bind_eq_none_iff.mpr fun s hs => ?_
  obtain ⟨bytes, hbytes, hs⟩ := Option.bind_eq_some_iff.mp hs
  exact Option.not_isSome_iff_eq_none.mp (h bytes hbytes s hs)

namespace Config

theorem ofEnv_update {env : Variable → Option ByteArray} {v : Variable}
    (h : ∀ bytes ∈ env v, ∀ s ∈ String.fromUTF8? bytes, ¬ v.Reads s) :
    ofEnv (Function.update env v none) = ofEnv env := by
  cases v <;> simp [ofEnv, text?_update, bind_eq_none h]

theorem ofEnv_of_reads (env : Variable → Option ByteArray) {bytes : ByteArray} {s : String}
    (hs : String.fromUTF8? bytes = some s) :
    (∀ n, env .tickMillis = some bytes → number? s = some n → (ofEnv env).tickMillis = max n 1) ∧
      (∀ n, env .maxTicks = some bytes → number? s = some n → (ofEnv env).maxTicks = n) ∧
      (∀ n, env .seed = some bytes → number? s = some n → (ofEnv env).seed = some n) ∧
      ∀ b, env .restart = some bytes → switch? s = some b → (ofEnv env).restartOnComplete = b := by
  have htext {v : Variable} (hv : env v = some bytes) : text? env v = some s := by
    rw [text?, hv]
    exact hs
  refine ⟨fun n hv hn => ?_, fun n hv hn => ?_, fun n hv hn => ?_, fun b hv hb => ?_⟩
  · simp [ofEnv, htext hv, hn]
  · simp [ofEnv, htext hv, hn]
  · simp [ofEnv, htext hv, hn]
  · simp [ofEnv, htext hv, hb]

theorem tickMillis_ne_zero (env : Variable → Option ByteArray) : (ofEnv env).tickMillis ≠ 0 := by
  change (((text? env .tickMillis).bind number?).map (max · 1)).getD standard.tickMillis ≠ 0
  cases (text? env .tickMillis).bind number? with
  | none => decide
  | some n =>
    change (if n ≤ 1 then 1 else n) ≠ 0
    split
    · decide
    · next hn =>
      rintro rfl
      exact hn (by decide)

end Config

/-- Each setting goes by its own variable. A variable that is not set, is not text or does not read
is as good as none, and one that reads sets its field; of milliseconds a tick takes one at least.
Numbers read that are made of digits and are below `2 ^ 64`. Of all texts, whatever the rule for the
capital sigma, those and only those become a word for yes or no in the lower case of Unicode that
are the word up to capitals of ASCII. A tick takes a finite time, and some. -/
theorem reads_of_env :
    (∀ env env' : Variable → Option ByteArray,
      (env .tickMillis = env' .tickMillis →
        (Config.ofEnv env).tickMillis = (Config.ofEnv env').tickMillis) ∧
      (env .maxTicks = env' .maxTicks →
        (Config.ofEnv env).maxTicks = (Config.ofEnv env').maxTicks) ∧
      (env .seed = env' .seed → (Config.ofEnv env).seed = (Config.ofEnv env').seed) ∧
      (env .restart = env' .restart →
        (Config.ofEnv env).restartOnComplete = (Config.ofEnv env').restartOnComplete)) ∧
    (∀ (env : Variable → Option ByteArray) (v : Variable),
      (∀ bytes ∈ env v, ∀ s ∈ String.fromUTF8? bytes, ¬ v.Reads s) →
        Config.ofEnv env = Config.ofEnv (Function.update env v none)) ∧
    (∀ (env : Variable → Option ByteArray) (bytes : ByteArray) (s : String),
      String.fromUTF8? bytes = some s →
        (∀ n, env .tickMillis = some bytes → number? s = some n →
          (Config.ofEnv env).tickMillis = max n 1) ∧
        (∀ n, env .maxTicks = some bytes → number? s = some n →
          (Config.ofEnv env).maxTicks = n) ∧
        (∀ n, env .seed = some bytes → number? s = some n →
          (Config.ofEnv env).seed = some n) ∧
        ∀ b, env .restart = some bytes → switch? s = some b →
          (Config.ofEnv env).restartOnComplete = b) ∧
    (∀ (s : String) (n : UInt64), number? s = some n ↔
      ∃ ds, (s.toList = ds ∨ s.toList = '+' :: ds) ∧ ds ≠ [] ∧ (∀ c ∈ ds, c.isDigit = true) ∧
        n.toNat = spelled ds) ∧
    (∀ (s : String) (b : Bool), switch? s = some b ↔ s.toLower ∈ spellings b) ∧
    (∀ (final : List Char → List Char → Bool) (s : String) (b : Bool),
      String.ofList (Text.lowercase final [] s.toList) ∈ spellings b ↔
        s.toLower ∈ spellings b) ∧
    (∀ c : Config, c.delta.isFinite = true ∧ (c.tickMillis ≠ 0 → 0 < c.delta)) ∧
    ∀ env : Variable → Option ByteArray,
      (Config.ofEnv env).delta.isFinite = true ∧ 0 < (Config.ofEnv env).delta := by
  have hdelta (c : Config) : c.delta.isFinite = true ∧ (c.tickMillis ≠ 0 → 0 < c.delta) :=
    ⟨c.delta_bounds.1.1, c.delta_bounds.2⟩
  refine ⟨fun env env' => ?_, fun env v h => (Config.ofEnv_update h).symm, fun env bytes s hs =>
    Config.ofEnv_of_reads env hs, fun s n => number?_eq_some, fun s b => switch?_eq_some,
    fun final s b => lowercase_mem_spellings final s, hdelta, fun env =>
      ⟨(hdelta _).1, (hdelta _).2 (Config.tickMillis_ne_zero env)⟩⟩
  refine ⟨fun h => ?_, fun h => ?_, fun h => ?_, fun h => ?_⟩ <;>
    simp only [Config.ofEnv, text?, h]

def mixed : Variable → Option ByteArray
  | .tickMillis => some "+0".toUTF8
  | .maxTicks => some ⟨#[0xff]⟩
  | .seed => none
  | .restart => some "oFF".toUTF8

theorem reads_of_env_mixed :
    let c := Config.ofEnv mixed
    c = ⟨1, 300, none, false⟩ ∧ c = Config.ofEnv (Function.update mixed .maxTicks none) ∧
      c.tickMillis = max 0 1 ∧ switch? "oFF" = some false ∧ c.restartOnComplete = false ∧
      c.delta.isFinite = true ∧ 0 < c.delta := by
  intro c
  obtain ⟨-, hunset, hset, -, hswitch, -, -, hdelta⟩ := reads_of_env
  have htext : String.fromUTF8? ⟨#[0xff]⟩ = none := by decide +kernel
  have hbytes (bytes) (h : bytes ∈ mixed .maxTicks) (s) (hs : s ∈ String.fromUTF8? bytes) :
      ¬ Variable.maxTicks.Reads s := by
    cases Option.mem_some_iff.mp h
    rw [htext] at hs
    nomatch hs
  have hoff : switch? "oFF" = some false := (hswitch _ _).mpr (by decide +kernel)
  obtain ⟨htick, -⟩ := hset mixed "+0".toUTF8 "+0" (by decide +kernel)
  obtain ⟨-, -, -, hrestart⟩ := hset mixed "oFF".toUTF8 "oFF" (by decide +kernel)
  exact ⟨by decide +kernel, hunset mixed .maxTicks hbytes, htick 0 rfl (by decide +kernel), hoff,
    hrestart false rfl hoff, hdelta mixed⟩

end TickTree.Npc
