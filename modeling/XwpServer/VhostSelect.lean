/-
  XwpServer.VhostSelect

  The choice of the vhost in `connection_process_request` (`connection.c`).

  The `Host` value is compared with a vhost's name over the length of the name.  A vhost so
  takes every request whose `Host` value only begins with its name, from the vhosts behind
  it too (`selectsVhost_iff`).
-/

import XwpServer.ConfParse
import XwpServer.Process

namespace XwpServer

open CString

variable {μ : Type}

/-! ## `connection_process_request` -/

/-- `vhost->name.data`, of which `vhost->name.len` is the length. -/
def VhostConf.nameText (vhost : VhostConf μ) : List Byte := vhost.name.getD []

/-- `strncasecmp(value, name, strlen(name)) == 0`. -/
def nameBegins (value name : List Byte) : Bool := strncasecmpEq value name name.length

/-- The same on a value that may be NULL, of which nothing is read for an empty name. -/
def hostMatches (value : Option (List Byte)) (name : List Byte) : Except Stop Bool :=
  match value with
  | some value => .ok (nameBegins value name)
  | none => if name = [] then .ok true else .error .nullDeref

/-- The loop over the vhosts. -/
def findVhost (value : Option (List Byte)) :
    List (VhostConf μ) → Except Stop (Option (VhostConf μ))
  | [] => .ok none
  | vhost :: vhosts =>
      match hostMatches value vhost.nameText with
      | .error e => .error e
      | .ok true => .ok (some vhost)
      | .ok false => findVhost value vhosts

/-- `cur_vhost`. -/
def connectionSelectVhost (thiz : ParsedConf μ) (r : HttpRequest) :
    Except Stop (Option (VhostConf μ)) :=
  let curVhost :=
    match r.headersIn.headerHost with
    | some host => findVhost (r.toHeap.cstr host.data) thiz.vhosts
    | none => .ok thiz.defaultVhost
  curVhost.map fun curVhost => curVhost.or thiz.defaultVhost

/-! ## The vhost of a request -/

/-- A `Host` value without a `:port` at its end. -/
def hostPart (value : List Byte) : List Byte :=
  let front := value.rdropWhile isdigit
  if front.getLast? = some COLON then front.dropLast else value

/-- The vhost of this name, ignoring case. -/
def VhostConf.isNamed (host : List Byte) (vhost : VhostConf μ) : Bool :=
  strcasecmpEq vhost.nameText host

/-- The vhost that the value names, and the default if it names none. -/
def namedVhost (thiz : ParsedConf μ) (value : List Byte) : Option (VhostConf μ) :=
  (thiz.vhosts.find? (·.isNamed (hostPart value))).or thiz.defaultVhost

/-- The string of a value; one that is NULL is empty. -/
def HttpRequest.hostText (r : HttpRequest) (host : Str) : List Byte :=
  (r.toHeap.cstr host.data).getD []

/-- A request with a `Host` header gets the vhost it names. -/
def SelectsVhost (thiz : ParsedConf μ) (r : HttpRequest) : Prop :=
  ∀ host, r.headersIn.headerHost = some host →
    connectionSelectVhost thiz r = .ok (namedVhost thiz (r.hostText host))

/-- No vhost in front of this one has a name that begins the value. -/
def ComesFirst (thiz : ParsedConf μ) (value : List Byte) (vhost : VhostConf μ) : Prop :=
  ∃ before behind, thiz.vhosts = before ++ vhost :: behind ∧
    ∀ x ∈ before, nameBegins value x.nameText = false

/-- Of the vhosts whose names begin the value, the first one is the one it names; or it
    names none, and the first one is the default. -/
def VhostUnshadowed (thiz : ParsedConf μ) (value : List Byte) : Prop :=
  (∃ vhost, vhost.isNamed (hostPart value) = true ∧ ComesFirst thiz value vhost) ∨
    (∀ vhost ∈ thiz.vhosts, vhost.isNamed (hostPart value) = false) ∧
      ∀ vhost, nameBegins value vhost.nameText = true → ComesFirst thiz value vhost →
        thiz.defaultVhost = some vhost

/-- A value that is NULL is not read. -/
def HostReadable (thiz : ParsedConf μ) (r : HttpRequest) (host : Str) : Prop :=
  r.toHeap.cstr host.data = none → ∀ vhost ∈ thiz.vhosts.head?, vhost.nameText = []

/-! ## First matches -/

theorem hostPart_prefix (value : List Byte) : hostPart value <+: value := by
  unfold hostPart
  dsimp only
  split
  · exact (List.dropLast_prefix _).trans (List.rdropWhile_prefix _ _)
  · exact List.prefix_refl _

/-- The vhost that is named begins the value. -/
theorem nameBegins_of_isNamed {value : List Byte} {vhost : VhostConf μ}
    (h : vhost.isNamed (hostPart value) = true) : nameBegins value vhost.nameText = true := by
  have hpre := hostPart_prefix value
  unfold VhostConf.isNamed at h
  generalize hostPart value = host at h hpre
  obtain ⟨port, rfl⟩ := hpre
  have hname : vhost.nameText.map tolower = host.map tolower := beq_iff_eq.mp h
  have hlen : vhost.nameText.length = host.length := by
    have := congrArg List.length hname
    rwa [List.length_map, List.length_map] at this
  unfold nameBegins strncasecmpEq strncmpEq
  rw [beq_iff_eq, hname, hlen, List.map_append, List.append_assoc,
    List.take_append_of_le_length (by rw [List.length_map]),
    List.take_append_of_le_length (by rw [List.length_map])]

/-- The loop is a first match, unless it reads a NULL. -/
theorem findVhost_eq {value : Option (List Byte)} {vhosts : List (VhostConf μ)}
    (hread : value = none → ∀ vhost ∈ vhosts.head?, vhost.nameText = []) :
    findVhost value vhosts =
      .ok (vhosts.find? fun vhost => nameBegins (value.getD []) vhost.nameText) := by
  induction vhosts with
  | nil => rfl
  | cons vhost vhosts ih =>
      cases value with
      | none =>
          have hempty : vhost.nameText = [] := hread rfl vhost rfl
          simp [findVhost, hostMatches, hempty, nameBegins, strncasecmpEq, strncmpEq]
      | some value =>
          rw [findVhost, hostMatches, List.find?_cons, ih nofun, Option.getD_some]
          cases nameBegins value vhost.nameText <;> rfl

theorem findVhost_null {vhosts : List (VhostConf μ)}
    (hread : ¬ ∀ vhost ∈ vhosts.head?, vhost.nameText = []) :
    findVhost none vhosts = .error .nullDeref := by
  cases vhosts with
  | nil => exact absurd nofun hread
  | cons vhost vhosts =>
      have hname : vhost.nameText ≠ [] := fun h => hread fun w hw => by
        rw [← Option.some.inj hw]
        exact h
      rw [findVhost, hostMatches, if_neg hname]

theorem comesFirst_find {thiz : ParsedConf μ} {value : List Byte} {vhost : VhostConf μ} :
    nameBegins value vhost.nameText = true ∧ ComesFirst thiz value vhost ↔
      thiz.vhosts.find? (fun x => nameBegins value x.nameText) = some vhost := by
  rw [List.find?_eq_some_iff_append]
  simp only [Bool.not_eq_true']
  rfl

/-- The first vhost whose name begins the value is the one of the request exactly if no
    other vhost is in its way. -/
theorem find_begins_iff (thiz : ParsedConf μ) (value : List Byte) :
    (thiz.vhosts.find? fun x => nameBegins value x.nameText).or thiz.defaultVhost =
        namedVhost thiz value ↔ VhostUnshadowed thiz value := by
  unfold namedVhost
  cases hfirst : thiz.vhosts.find? fun x => nameBegins value x.nameText with
  | none =>
      -- no name begins the value, so none is the host part
      have hnone : ∀ x ∈ thiz.vhosts, x.isNamed (hostPart value) = false := by
        intro x hx
        have hx := List.find?_eq_none.mp hfirst x hx
        by_contra hnamed
        exact hx (nameBegins_of_isNamed (by simpa using hnamed))
      have hnamed : thiz.vhosts.find? (·.isNamed (hostPart value)) = none :=
        List.find?_eq_none.mpr fun x hx => by simp [hnone x hx]
      rw [hnamed]
      refine ⟨fun _ => .inr ⟨hnone, fun vhost hb hc => ?_⟩, fun _ => rfl⟩
      rw [comesFirst_find.mp ⟨hb, hc⟩] at hfirst
      cases hfirst
  | some first =>
      obtain ⟨hbegins, hcomes⟩ := comesFirst_find.mpr hfirst
      rw [Option.some_or]
      constructor
      · intro heq
        cases hnamed : thiz.vhosts.find? (·.isNamed (hostPart value)) with
        | some w =>
            rw [hnamed, Option.some_or] at heq
            cases heq
            have hfirst := List.find?_some hnamed
            exact .inl ⟨first, hfirst, hcomes⟩
        | none =>
            rw [hnamed, Option.none_or] at heq
            refine .inr ⟨fun x hx => ?_, fun w hb hc => ?_⟩
            · exact Bool.eq_false_iff.mpr (List.find?_eq_none.mp hnamed x hx)
            · rw [comesFirst_find.mp ⟨hb, hc⟩] at hfirst
              rw [← heq, hfirst]
      · rintro (⟨w, hw, hc⟩ | ⟨hnone, hdefault⟩)
        · have hw' := comesFirst_find.mp ⟨nameBegins_of_isNamed hw, hc⟩
          rw [hfirst] at hw'
          cases hw'
          obtain ⟨before, behind, hsplit, hbefore⟩ := hc
          have hnamed : thiz.vhosts.find? (·.isNamed (hostPart value)) = some first := by
            refine List.find?_eq_some_iff_append.mpr ⟨hw, before, behind, hsplit, fun x hx => ?_⟩
            have hx := hbefore x hx
            rw [Bool.not_eq_true', Bool.eq_false_iff]
            intro hnamed
            rw [nameBegins_of_isNamed hnamed] at hx
            cases hx
          rw [hnamed, Option.some_or]
        · have hnamed : thiz.vhosts.find? (·.isNamed (hostPart value)) = none :=
            List.find?_eq_none.mpr fun x hx => by simp [hnone x hx]
          rw [hnamed, Option.none_or, hdefault first hbegins hcomes]

/-- A request gets the vhost it names exactly if its value can be read, and no vhost whose
    name only begins the value comes first. -/
theorem selectsVhost_iff (thiz : ParsedConf μ) (r : HttpRequest) :
    SelectsVhost thiz r ↔ ∀ host, r.headersIn.headerHost = some host →
      HostReadable thiz r host ∧ VhostUnshadowed thiz (r.hostText host) := by
  refine forall_congr' fun host => imp_congr_right fun hhost => ?_
  have hselect : connectionSelectVhost thiz r =
      (findVhost (r.toHeap.cstr host.data) thiz.vhosts).map
        fun curVhost => curVhost.or thiz.defaultVhost := by
    rw [connectionSelectVhost, hhost]
  rw [hselect, ← find_begins_iff]
  by_cases hread : HostReadable thiz r host
  · rw [findVhost_eq hread]
    show Except.ok _ = Except.ok _ ↔ _
    rw [Except.ok.injEq]
    exact ⟨fun h => ⟨hread, h⟩, fun h => h.2⟩
  · obtain ⟨hnull, hname⟩ := Classical.not_imp.mp hread
    rw [hnull, findVhost_null hname]
    exact ⟨nofun, fun h => absurd h.1 hread⟩

/-- Of the vhosts `a` and `ab`, a request that names the second gets the first. -/
theorem not_selectsVhost : ¬ ∀ (thiz : ParsedConf Unit) (r : HttpRequest),
    thiz.vhosts.Pairwise (fun x y => strcasecmpEq x.nameText y.nameText = false) →
      SelectsVhost thiz r := by
  intro h
  let host : Str := ⟨.lit (bytes "ab"), 2⟩
  let thiz : ParsedConf Unit := {
    workerNum := 1, maxThreads := 1, requestPoolSize := 4096, connectionTimeout := 10
    clientHeaderSize := 1024, largeClientHeaderSize := 4096, contentBodyBufSize := 4096
    maxContentLen := 65536, port := 80, ip := none, root := none, defaultPage := []
    vhosts := [{ name := some (bytes "a") }, { name := some (bytes "ab") }]
    defaultVhost := some { name := some (bytes "a") } }
  have hnames : (connectionSelectVhost thiz { headersIn := { headerHost := some host } }).map
      (fun vhost => vhost.map (·.nameText)) = .ok (some (bytes "a")) := rfl
  rw [h thiz { headersIn := { headerHost := some host } } (by decide) host rfl] at hnames
  exact absurd hnames (by decide)

end XwpServer
