/-
  XwpServer.UwsgiModule

  The configuration of the uwsgi module, from its XML node to the bytes of a packet.

  `module_uwsgi_conf_init` stores both modifiers into the first one, and tests an unsigned
  port for `-1`.  So it does not miss a missing port, and it is right about the modifiers
  only if both are 0 in a byte (`confInit_correct_iff`).  What it has stored is what the
  packets carry: nothing behind their header writes into it (`uwsgiPacket_modifiers`).
-/

import XwpServer.XmlTree
import XwpServer.HeadTable
import XwpServer.Uwsgi

namespace XwpServer

open CString

/-! ## `module_uwsgi_conf_init` -/

/-- `module_uwsgi_conf_t`; `pass_params` is not used. -/
structure ModuleUwsgiConf where
  ip : Option (List Byte) := none
  port : UInt16 := 0
  modifier1 : UInt8 := 0
  modifier2 : UInt8 := 0
  deriving DecidableEq, Repr

/-- The conversion of an `int` to `uint8_t`. -/
def uint8Of (n : Int) : UInt8 := (n % 2 ^ 8).toNat.toUInt8

/-- The conversion of an `int` to `uint16_t`. -/
def uint16Of (n : Int) : UInt16 := (n % 2 ^ 16).toNat.toUInt16

/-- `pool_strdup2`, which leaves its target alone when the string is NULL. -/
def poolStrdup2 (out str : Option (List Byte)) : Option (List Byte) := str.or out

/-- `module_uwsgi_conf_init`. -/
def moduleUwsgiConfInit (conf : ModuleUwsgiConf) (xmlConfNode : Option XmlNode) :
    Bool × ModuleUwsgiConf :=
  let conf := { conf with modifier1 := uint8Of (xmlTreeIntFirst xmlConfNode (bytes "modifier1") 0) }
  let conf := { conf with modifier1 := uint8Of (xmlTreeIntFirst xmlConfNode (bytes "modifier2") 0) }
  match xmlTreeFindFirst xmlConfNode (bytes "uwsgi_pass") with
  | none => (false, conf)
  | some passConfNode =>
    let conf := { conf with
      ip := poolStrdup2 conf.ip (xmlTreeStrFirst passConfNode (bytes "ip")) }
    let conf := if conf.ip = none then { conf with ip := some (bytes "127.0.0.1") } else conf
    let conf := { conf with port := uint16Of (xmlTreeIntFirst passConfNode (bytes "port") (-1)) }
    -- the port is promoted to an `int` that is not negative
    if (conf.port.toNat : Int) = -1 then (false, conf) else (true, conf)

/-- What a location sends with: its own part, and the modifiers of its module. -/
def ModuleUwsgiConf.location (conf : ModuleUwsgiConf) (loc : UwsgiConf) : UwsgiConf :=
  { loc with modifier1 := conf.modifier1, modifier2 := conf.modifier2 }

/-! ## What the configuration is for -/

/-- The node asks for a backend whose port it tells. -/
def HasPort (xmlConfNode : Option XmlNode) : Prop :=
  ∃ pass text, xmlTreeFindFirst xmlConfNode (bytes "uwsgi_pass") = some pass ∧
    xmlTreeStrFirst pass (bytes "port") = some text

/-- The values of the elements, with their defaults. -/
def confElements (xmlConfNode : Option XmlNode) : ModuleUwsgiConf :=
  let pass := xmlTreeFindFirst xmlConfNode (bytes "uwsgi_pass")
  { ip := some ((xmlTreeStrFirst pass (bytes "ip")).getD (bytes "127.0.0.1"))
    port := uint16Of (xmlTreeIntFirst pass (bytes "port") 0)
    modifier1 := uint8Of (xmlTreeIntFirst xmlConfNode (bytes "modifier1") 0)
    modifier2 := uint8Of (xmlTreeIntFirst xmlConfNode (bytes "modifier2") 0) }

/-- A node is accepted if it has a port, with the values of its elements, and the packets
    carry its modifiers. -/
structure ConfInitCorrect (xmlConfNode : Option XmlNode) : Prop where
  accepts : (moduleUwsgiConfInit {} xmlConfNode).1 = true ↔ HasPort xmlConfNode
  values : (moduleUwsgiConfInit {} xmlConfNode).1 = true →
    (moduleUwsgiConfInit {} xmlConfNode).2 = confElements xmlConfNode
  packets : (moduleUwsgiConfInit {} xmlConfNode).1 = true → ∀ loc r m,
    uwsgiPacket ((moduleUwsgiConfInit {} xmlConfNode).2.location loc) r = .ok m →
    m[0]? = some (confElements xmlConfNode).modifier1 ∧
      m[3]? = some (confElements xmlConfNode).modifier2

/-! ## The header of a packet -/

section Behind

variable {hd m m' : List Byte} {pos pos' : Nat}

theorem prefix_writeAt {bs : List Byte} (h : hd <+: m) (hpos : hd.length ≤ pos) :
    hd <+: writeAt m pos bs := by
  have htake : hd <+: m.take pos := List.prefix_take_iff.mpr ⟨h, hpos⟩
  rw [writeAt, List.append_assoc]
  exact htake.trans (List.prefix_append _ _)

theorem prefix_store {bs : List Byte} (h : hd <+: m) (hpos : hd.length ≤ pos)
    (hstore : store m pos bs = .ok m') : hd <+: m' := by
  unfold store at hstore
  split at hstore
  · cases hstore
  cases hstore
  exact prefix_writeAt h hpos

/-- The block begins with the header, and the position is behind it. -/
def Behind (hd : List Byte) (x : List Byte × Nat) : Prop := hd <+: x.1 ∧ hd.length ≤ x.2

theorem addParam_behind {h : Heap} {name : List Byte} {value : Option Str}
    (hb : Behind hd (m, pos)) (hadd : upstreamUwsgiAddParam h m pos name value = .ok (m', pos')) :
    Behind hd (m', pos') := by
  obtain ⟨hpre, hpos⟩ := hb
  have hpos : hd.length ≤ pos := hpos
  simp only [upstreamUwsgiAddParam, Except.bind_eq_ok] at hadd
  obtain ⟨m₁, h₁, m₂, h₂, hadd⟩ := hadd
  have hpre₁ := prefix_store hpre hpos h₁
  have hpre₂ := prefix_store hpre₁ (by omega) h₂
  rcases hf : value.filter (0 < ·.len) with _ | v
  -- an empty value has its length only
  · simp only [hf, Except.bind_eq_ok] at hadd
    obtain ⟨m₃, h₃, hadd⟩ := hadd
    have hpre₃ := prefix_store hpre₂ (by omega) h₃
    simp only [pure, Except.pure, Except.ok.injEq, Prod.mk.injEq] at hadd
    obtain ⟨rfl, rfl⟩ := hadd
    exact ⟨hpre₃, by simp only; omega⟩
  · simp only [hf, Except.bind_eq_ok] at hadd
    obtain ⟨-, -, m₃, h₃, m₄, h₄, hadd⟩ := hadd
    have hpre₃ := prefix_store hpre₂ (by omega) h₃
    have hpre₄ := prefix_store hpre₃ (by omega) h₄
    simp only [pure, Except.pure, Except.ok.injEq, Prod.mk.injEq] at hadd
    obtain ⟨rfl, rfl⟩ := hadd
    exact ⟨hpre₄, by simp only; omega⟩

theorem addHeader_behind {h : Heap} {e : Header} (hb : Behind hd (m, pos))
    (hadd : upstreamUwsgiAddHeader h m pos e = .ok (m', pos')) : Behind hd (m', pos') := by
  unfold upstreamUwsgiAddHeader at hadd
  split at hadd
  · cases hadd
    exact hb
  obtain ⟨hpre, hpos⟩ := hb
  have hpos : hd.length ≤ pos := hpos
  simp only [Except.bind_eq_ok] at hadd
  obtain ⟨m₁, h₁, m₂, h₂, hadd⟩ := hadd
  have hpre₁ := prefix_store hpre hpos h₁
  have hpre₂ := prefix_store hpre₁ (by omega) h₂
  -- the name is turned into that of its variable behind `HTTP_`
  have hup : hd <+: upcase m₂ (pos + 2 + HTTP_PREFIX.length) := prefix_writeAt hpre₂ (by omega)
  split at hadd
  · simp only [Except.bind_eq_ok] at hadd
    obtain ⟨m₃, h₃, m₄, h₄, hadd⟩ := hadd
    have hpre₃ := prefix_store hup (by omega) h₃
    have hpre₄ := prefix_store hpre₃ (by omega) h₄
    simp only [pure, Except.pure, Except.ok.injEq, Prod.mk.injEq] at hadd
    obtain ⟨rfl, rfl⟩ := hadd
    exact ⟨hpre₄, by simp only; omega⟩
  · simp only [Except.bind_eq_ok] at hadd
    obtain ⟨m₃, h₃, hadd⟩ := hadd
    have hpre₃ := prefix_store hup (by omega) h₃
    simp only [pure, Except.pure, Except.ok.injEq, Prod.mk.injEq] at hadd
    obtain ⟨rfl, rfl⟩ := hadd
    exact ⟨hpre₃, by simp only; omega⟩

theorem foldlM_behind {α : Type} {f : List Byte × Nat → α → Except Stop (List Byte × Nat)}
    (hf : ∀ a x y, Behind hd x → f x a = .ok y → Behind hd y) (l : List α)
    {x y : List Byte × Nat} (hx : Behind hd x) (h : l.foldlM f x = .ok y) : Behind hd y := by
  induction l generalizing x with
  | nil =>
      cases h
      exact hx
  | cons a l ih =>
      simp only [List.foldlM_cons, Except.bind_eq_ok] at h
      obtain ⟨z, hz, h⟩ := h
      exact ih (hf a x z hx hz) h

end Behind

/-- The modifiers are the bytes 0 and 3 of every packet. -/
theorem uwsgiPacket_modifiers {conf : UwsgiConf} {r : UpstreamRequest} {packet : List Byte}
    (hok : uwsgiPacket conf r = .ok packet) :
    packet[0]? = some conf.modifier1 ∧ packet[3]? = some conf.modifier2 := by
  simp only [uwsgiPacket, Except.bind_eq_ok] at hok
  obtain ⟨⟨m, pos⟩, hbuild, hok⟩ := hok
  split at hok
  case isFalse => cases hok
  cases hok
  simp only [uwsgiBuild, Except.bind_eq_ok] at hbuild
  obtain ⟨m₁, h₁, m₂, h₂, m₃, h₃, x, hx, hm⟩ := hbuild
  -- the block after the header has been stored
  generalize hd₀ : upstreamUwsgiCalcPacketLen conf r = datasize at *
  obtain ⟨lo, hi, hle⟩ : ∃ lo hi, KeyValue.le16 datasize = [lo, hi] := ⟨_, _, rfl⟩
  have hheader : [conf.modifier1, lo, hi, conf.modifier2] <+: m₃ := by
    unfold uint16LittleEndian at h₂
    rw [hle] at h₂
    unfold store at h₁ h₂ h₃
    split at h₁
    · cases h₁
    cases h₁
    split at h₂
    · cases h₂
    cases h₂
    split at h₃
    · cases h₃
    cases h₃
    simp [writeAt, List.replicate_succ]
  have hbehind : Behind [conf.modifier1, lo, hi, conf.modifier2] (m₃, 4) := ⟨hheader, Nat.le_refl 4⟩
  have hparams := foldlM_behind (fun a x y hx h => addParam_behind hx h) _ hbehind hx
  obtain ⟨hpre, hpos⟩ := foldlM_behind (fun a x y hx h => addHeader_behind hx h) _ hparams hm
  have htake : [conf.modifier1, lo, hi, conf.modifier2] <+: m.take pos :=
    List.prefix_take_iff.mpr ⟨hpre, hpos⟩
  obtain ⟨rest, hrest⟩ := htake
  rw [← hrest]
  exact ⟨rfl, rfl⟩

/-! ## The conversion -/

/-- A node is accepted exactly if it has an element `uwsgi_pass`. -/
theorem confInit_accepts (node : Option XmlNode) :
    (moduleUwsgiConfInit {} node).1 = true ↔
      xmlTreeFindFirst node (bytes "uwsgi_pass") ≠ none := by
  unfold moduleUwsgiConfInit
  cases hpass : xmlTreeFindFirst node (bytes "uwsgi_pass") with
  | none => simp
  | some pass =>
      -- the unsigned port is never -1
      dsimp only
      rw [if_neg (by omega)]
      simp

theorem confInit_values {node pass : Option XmlNode}
    (hpass : xmlTreeFindFirst node (bytes "uwsgi_pass") = pass) (hsome : pass ≠ none) :
    (moduleUwsgiConfInit {} node).2 = {
      ip := some ((xmlTreeStrFirst pass (bytes "ip")).getD (bytes "127.0.0.1"))
      port := uint16Of (xmlTreeIntFirst pass (bytes "port") (-1))
      modifier1 := uint8Of (xmlTreeIntFirst node (bytes "modifier2") 0)
      modifier2 := 0 } := by
  obtain ⟨pass, rfl⟩ := Option.ne_none_iff_exists'.mp hsome
  unfold moduleUwsgiConfInit
  simp only [hpass, poolStrdup2]
  rw [if_neg (by omega)]
  cases xmlTreeStrFirst (some pass) (bytes "ip") <;> simp

/-- The conversion is right about the nodes without `uwsgi_pass`, and about those with a
    port whose modifiers are both 0 in a byte. -/
theorem confInit_correct_iff (node : Option XmlNode) :
    ConfInitCorrect node ↔
      xmlTreeFindFirst node (bytes "uwsgi_pass") = none ∨
        HasPort node ∧ uint8Of (xmlTreeIntFirst node (bytes "modifier1") 0) = 0 ∧
          uint8Of (xmlTreeIntFirst node (bytes "modifier2") 0) = 0 := by
  by_cases hpass : xmlTreeFindFirst node (bytes "uwsgi_pass") = none
  · -- nothing is accepted, and there is no port
    have hno : (moduleUwsgiConfInit {} node).1 ≠ true := by
      rw [Ne, confInit_accepts]
      exact not_not_intro hpass
    have hport : ¬ HasPort node := fun ⟨pass, _, hp, _⟩ => by rw [hpass] at hp; cases hp
    simp only [hpass, true_or, iff_true]
    exact ⟨by simp [hno, hport], fun h => absurd h hno, fun h => absurd h hno⟩
  have hyes := (confInit_accepts node).mpr hpass
  have hvalues := confInit_values rfl hpass
  simp only [hpass, false_or]
  constructor
  · intro h
    -- both modifiers are those of the first field
    have hconf := h.values hyes
    rw [hvalues, confElements] at hconf
    simp only [ModuleUwsgiConf.mk.injEq] at hconf
    obtain ⟨-, -, h₁, h₂⟩ := hconf
    refine ⟨h.accepts.mp hyes, ?_, h₂.symm⟩
    rw [← h₁, h₂.symm]
  · rintro ⟨hport, h₁, h₂⟩
    obtain ⟨pass, text, hp, htext⟩ := hport
    have hint : ∀ d, xmlTreeIntFirst (some pass) (bytes "port") d = atoi text := fun d => by
      have htext : xmlTreeStr (some pass) (bytes "port") 0 = some text := htext
      simp [xmlTreeIntFirst, xmlTreeInt, htext]
    have hconf : (moduleUwsgiConfInit {} node).2 = confElements node := by
      rw [hvalues, confElements]
      simp only [hp, h₁, h₂, hint]
    refine ⟨⟨fun _ => ⟨pass, text, hp, htext⟩, fun _ => hyes⟩, fun _ => hconf,
      fun _ loc r m hm => ?_⟩
    rw [← hconf]
    exact uwsgiPacket_modifiers hm

/-- `<handler_conf><modifier2>5</modifier2><uwsgi_pass/></handler_conf>`: it has no port and
    is accepted, and `modifier2` goes into the first field. -/
theorem not_confInit_correct : ¬ ∀ node, ConfInitCorrect node := by
  intro h
  let node : XmlNode := ⟨.normal (bytes "handler_conf"), [
    ⟨.normal (bytes "modifier2"), [⟨.text (bytes "5"), []⟩]⟩,
    ⟨.normal (bytes "uwsgi_pass"), []⟩]⟩
  have hport : ¬ HasPort (some node) := by
    rintro ⟨pass, text, hp, htext⟩
    have hpass : xmlTreeFindFirst (some node) (bytes "uwsgi_pass") =
        some ⟨.normal (bytes "uwsgi_pass"), []⟩ := by rfl
    rw [hpass] at hp
    cases hp
    cases htext
  exact hport ((h (some node)).accepts.mp (by decide))

end XwpServer
