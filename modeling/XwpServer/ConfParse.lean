/-
  XwpServer.ConfParse

  What `conf_parse` makes of the tree of a configuration file.

  The file lists the modules, the vhosts and, below each vhost, its locations; each list
  is read by a loop that counts through the elements of a name.  Every loop is followed
  by a check for an empty list, `if(i == 0)`, but the counter has been stepped once more
  by then, so none of the checks can fire.  A vhost without a location is accepted, and
  without a vhost the first element of an empty array is read (`confParse_usable_iff`).
  Everything else a configuration needs is checked: of the lists that are not empty,
  each element is read, once and in the order of the document.

  The dynamic linker and the modules are parameters.  Allocations are total; the compiled
  pattern of a location, the texts a module has for the log and the pointers to a parent
  are left out.
-/

import Mathlib.Data.List.Forall2
import XwpServer.XmlTree

namespace XwpServer

open CString Enumerate

/-! ## The configuration -/

/-- `vhost_loc_conf_t`; a string whose data is `NULL` is `none`. -/
structure VhostLocConf (μ : Type) where
  root : Option (List Byte) := none
  patternStr : Option (List Byte) := none
  handlerName : Option (List Byte) := none
  handler : Option μ := none

structure VhostConf (μ : Type) where
  name : Option (List Byte) := none
  root : Option (List Byte) := none
  locs : List (VhostLocConf μ) := []

/-- What `module_get_info` fills in. -/
structure ModuleSoConf (μ : Type) where
  name : List Byte
  moduleCreate : VhostLocConf μ → Option XmlNode → Option μ

/-- `conf_t`, as it is built. -/
structure ParsedConf (μ : Type) where
  workerNum : Int
  maxThreads : Int
  requestPoolSize : Int
  connectionTimeout : Int
  clientHeaderSize : Int
  largeClientHeaderSize : Int
  contentBodyBufSize : Int
  maxContentLen : Int
  port : Int
  ip : Option (List Byte)
  root : Option (List Byte)
  defaultPage : List Byte
  moduleSos : List (ModuleSoConf μ) := []
  vhosts : List (VhostConf μ) := []
  defaultVhost : Option (VhostConf μ) := none

/-- The dynamic linker.  An error is what `dlerror` says. -/
structure Linker (η μ : Type) where
  dlopen : List Byte → Except (List Byte) η
  dlsym : η → Except (List Byte) (ModuleSoConf μ)

/-- `exit(-1)`, with what is logged in front of it. -/
structure ConfExit where
  message : String
  args : List (List Byte) := []
  deriving DecidableEq, Repr

variable {η μ : Type}

/-! ## Modules -/

/-- A round of the loop of `conf_parse_loadmodule`. -/
def loadModule (D : Linker η μ) (thiz : ParsedConf μ) (soFile : List Byte) :
    Except ConfExit (ParsedConf μ) :=
  match D.dlopen soFile with
  | .error e => .error ⟨"dlopen failed: %s, so file: %s", [e, soFile]⟩
  | .ok handler =>
      match D.dlsym handler with
      | .error e => .error ⟨"dlsym failed: %s", [e]⟩
      | .ok so => .ok { thiz with moduleSos := thiz.moduleSos ++ [so] }

def confParseLoadmodule (D : Linker η μ) (thiz : ParsedConf μ) (root : Option XmlNode) :
    Except ConfExit (ParsedConf μ) := do
  let (i, thiz) ← (strLookup root (bytes "module")).loop (loadModule D) thiz
  if i = 0 then .error ⟨"at least one module needed.", []⟩ else return thiz

/-! ## Locations -/

/-- The handler of the first module of this name, if it makes one. -/
def createHandler (moduleSos : List (ModuleSoConf μ)) (loc : VhostLocConf μ)
    (name : List Byte) (handlerConfNode : Option XmlNode) : Option μ :=
  match moduleSos with
  | [] => none
  | so :: rest =>
      if name = so.name then so.moduleCreate loc handlerConfNode
      else createHandler rest loc name handlerConfNode

def confParseLocation (thiz : ParsedConf μ) (vhost : VhostConf μ) (root : XmlNode) :
    Except ConfExit (VhostConf μ) :=
  let loc : VhostLocConf μ := { root := xmlTreeStrFirst root (bytes "root") }
  let loc := if loc.root = none then { loc with root := vhost.root } else loc
  let loc := { loc with patternStr := xmlTreeStrFirst root (bytes "pattern") }
  if loc.patternStr = none then .error ⟨"pattern str needed.", []⟩
  else
    match xmlTreeFindFirst root (bytes "handler") with
    | none => .error ⟨"at least one handler needed.", []⟩
    | some handlerNode =>
        let handlerConfNode := xmlTreeFindFirst handlerNode (bytes "handler_conf")
        match xmlTreeStrFirst handlerNode (bytes "name") with
        | none => .error ⟨"handler name needed.", []⟩
        | some name =>
            let loc := { loc with handlerName := some name }
            let loc := { loc with
              handler := createHandler thiz.moduleSos loc name handlerConfNode }
            match loc.handler with
            | none => .error ⟨"handler %s not found.", [name]⟩
            | some _ => .ok { vhost with locs := vhost.locs ++ [loc] }

/-! ## Vhosts -/

def confParseVhost (thiz : ParsedConf μ) (root : XmlNode) : Except ConfExit (ParsedConf μ) := do
  let vhost : VhostConf μ :=
    { name := xmlTreeStrFirst root (bytes "name")
      root := xmlTreeStrFirst root (bytes "root") }
  if vhost.name = none then .error ⟨"invalid vhost: vhost name null", []⟩
  else
    let vhost := if vhost.root = none then { vhost with root := thiz.root } else vhost
    let (i, vhost) ← (findLookup root (bytes "location")).loop (confParseLocation thiz) vhost
    if i = 0 then .error ⟨"at least one vhost location needed.", []⟩
    else return { thiz with vhosts := thiz.vhosts ++ [vhost] }

/-! ## The file -/

/-- The values of the configuration, each with its default. -/
def confValues (root : XmlNode) : ParsedConf μ where
  workerNum := xmlTreeIntFirst root (bytes "worker_num") 1
  maxThreads := xmlTreeIntFirst root (bytes "max_threads") 50
  requestPoolSize := xmlTreeIntFirst root (bytes "request_pool_size") (1024 * 8)
  connectionTimeout := xmlTreeIntFirst root (bytes "connection_timeout") 30
  clientHeaderSize := xmlTreeIntFirst root (bytes "client_header_size") (1024 * 2)
  largeClientHeaderSize := xmlTreeIntFirst root (bytes "large_client_header_size") (1024 * 4)
  contentBodyBufSize := xmlTreeIntFirst root (bytes "content_body_buf_size") (4 * 1024)
  maxContentLen := xmlTreeIntFirst root (bytes "max_content_len") (1024 * 1024)
  port := xmlTreeIntFirst root (bytes "port") 80
  ip := xmlTreeStrFirst root (bytes "ip")
  root := xmlTreeStrFirst root (bytes "root")
  defaultPage := bytes "index.html"

/-- `conf_parse` up to its last check. -/
def confParseTree (D : Linker η μ) (tree : Option XmlNode) : Except ConfExit (ParsedConf μ) :=
  match tree with
  | none => .error ⟨"get xml tree nodes failed.", []⟩
  | some root => do
      let thiz : ParsedConf μ := confValues root
      if thiz.root = none then .error ⟨"root directory needed.", []⟩
      else
        let thiz ← confParseLoadmodule D thiz (xmlTreeFindFirst root (bytes "load_module"))
        let (i, thiz) ← (findLookup root (bytes "vhost")).loop confParseVhost thiz
        if i = 0 then .error ⟨"at least one vhost needed.", []⟩ else return thiz

/-- How `conf_parse` ends: it exits, reads through a null pointer, or returns. -/
inductive ConfEnd (μ : Type) where
  | exit (e : ConfExit)
  | nullDeref
  | ret (thiz : ParsedConf μ)

/-- `conf_parse`.  The array of the vhosts is allocated zeroed, so the first element of
    an empty one is `NULL`; its name is read for the log. -/
def confParse (D : Linker η μ) (tree : Option XmlNode) : ConfEnd μ :=
  match confParseTree D tree with
  | .error e => .exit e
  | .ok thiz =>
      match thiz.vhosts.head? with
      | none => .nullDeref
      | some v => .ret { thiz with defaultVhost := some v }

/-! ## What a tree says -/

/-- The module a shared object has, if it can be opened and has one. -/
def Linker.load? (D : Linker η μ) (soFile : List Byte) : Option (ModuleSoConf μ) :=
  match D.dlopen soFile with
  | .error _ => none
  | .ok handler =>
      match D.dlsym handler with
      | .error _ => none
      | .ok so => some so

/-- The shared objects the file lists. -/
def moduleFiles (root : XmlNode) : List (List Byte) :=
  textsOf (xmlTreeFindFirst root (bytes "load_module")) (bytes "module")

def modulesOf (D : Linker η μ) (root : XmlNode) : List (ModuleSoConf μ) :=
  (moduleFiles root).filterMap D.load?

/-- The root of an element, which is inherited if it has none of its own. -/
def rootOf (inherited : Option (List Byte)) (node : XmlNode) : Option (List Byte) :=
  (xmlTreeStrFirst node (bytes "root")).or inherited

def handlerNameOf (node : XmlNode) : Option (List Byte) :=
  (xmlTreeFindFirst node (bytes "handler")).bind fun h => xmlTreeStrFirst h (bytes "name")

/-- A location as the module that handles it is shown it. -/
def bareLocOf (vhostRoot : Option (List Byte)) (node : XmlNode) : VhostLocConf μ where
  root := rootOf vhostRoot node
  patternStr := xmlTreeStrFirst node (bytes "pattern")
  handlerName := handlerNameOf node

/-- What the first module of the handler's name makes of a location. -/
def handlerOf (moduleSos : List (ModuleSoConf μ)) (vhostRoot : Option (List Byte))
    (node : XmlNode) : Option μ := do
  let handlerNode ← xmlTreeFindFirst node (bytes "handler")
  let name ← xmlTreeStrFirst handlerNode (bytes "name")
  let so ← moduleSos.find? fun so => name == so.name
  so.moduleCreate (bareLocOf vhostRoot node)
    (xmlTreeFindFirst handlerNode (bytes "handler_conf"))

def locOf (moduleSos : List (ModuleSoConf μ)) (vhostRoot : Option (List Byte))
    (node : XmlNode) : VhostLocConf μ :=
  { (bareLocOf vhostRoot node : VhostLocConf μ) with
    handler := handlerOf moduleSos vhostRoot node }

def vhostOf (moduleSos : List (ModuleSoConf μ)) (confRoot : Option (List Byte))
    (node : XmlNode) : VhostConf μ where
  name := xmlTreeStrFirst node (bytes "name")
  root := rootOf confRoot node
  locs := (node.elements (bytes "location")).map (locOf moduleSos (rootOf confRoot node))

/-- The configuration a tree describes. -/
def confOf (D : Linker η μ) (root : XmlNode) : ParsedConf μ :=
  { confValues root with
    moduleSos := modulesOf D root
    vhosts := (root.elements (bytes "vhost")).map
      (vhostOf (modulesOf D root) (xmlTreeStrFirst root (bytes "root"))) }

/-! ## What is accepted -/

/-- What is checked of a location. -/
structure LocationAccepted (moduleSos : List (ModuleSoConf μ))
    (vhostRoot : Option (List Byte)) (node : XmlNode) : Prop where
  pattern : xmlTreeStrFirst node (bytes "pattern") ≠ none
  handler : handlerOf moduleSos vhostRoot node ≠ none

/-- What is checked of a vhost. -/
structure VhostAccepted (moduleSos : List (ModuleSoConf μ)) (confRoot : Option (List Byte))
    (node : XmlNode) : Prop where
  name : xmlTreeStrFirst node (bytes "name") ≠ none
  locations : ∀ l ∈ node.elements (bytes "location"),
    LocationAccepted moduleSos (rootOf confRoot node) l

/-- Every check of `conf_parse` passes, but the ones that cannot fire. -/
structure TreeAccepted (D : Linker η μ) (tree : XmlNode) : Prop where
  root : xmlTreeStrFirst tree (bytes "root") ≠ none
  modules : ∀ f ∈ moduleFiles tree, D.load? f ≠ none
  vhosts : ∀ v ∈ tree.elements (bytes "vhost"),
    VhostAccepted (modulesOf D tree) (xmlTreeStrFirst tree (bytes "root")) v

/-! ## Each function -/

theorem loadModule_ok_iff {D : Linker η μ} {thiz thiz' : ParsedConf μ} {soFile : List Byte} :
    loadModule D thiz soFile = .ok thiz' ↔
      ∃ so, D.load? soFile = some so ∧
        thiz' = { thiz with moduleSos := thiz.moduleSos ++ [so] } := by
  unfold loadModule Linker.load?
  cases D.dlopen soFile with
  | error e => simp
  | ok handler =>
      dsimp only
      cases D.dlsym handler with
      | error e => simp
      | ok so => simp [eq_comm]

theorem createHandler_eq (moduleSos : List (ModuleSoConf μ)) (loc : VhostLocConf μ)
    (name : List Byte) (conf : Option XmlNode) :
    createHandler moduleSos loc name conf
      = (moduleSos.find? fun so => name == so.name).bind fun so => so.moduleCreate loc conf := by
  induction moduleSos with
  | nil => rfl
  | cons so rest ih =>
      unfold createHandler
      by_cases hname : name = so.name
      · rw [if_pos hname, List.find?_cons_of_pos (by simpa using hname)]
        rfl
      · rw [if_neg hname, List.find?_cons_of_neg (by simpa using hname), ih]

/-- The objects that are listed are loaded, in their order. -/
theorem confParseLoadmodule_ok_iff {D : Linker η μ} {thiz thiz' : ParsedConf μ}
    {root : XmlNode} :
    confParseLoadmodule D thiz (xmlTreeFindFirst root (bytes "load_module")) = .ok thiz' ↔
      (∀ f ∈ moduleFiles root, D.load? f ≠ none) ∧
        thiz' = { thiz with moduleSos := thiz.moduleSos ++ modulesOf D root } := by
  have hlists := strLookup_lists (xmlTreeFindFirst root (bytes "load_module")) (bytes "module")
  -- what is built is kept as a list of options, none of which is `none`
  let built (bs : List (Option (ModuleSoConf μ))) : ParsedConf μ :=
    { thiz with moduleSos := thiz.moduleSos ++ bs.filterMap id }
  have hbody : ∀ bs f t, loadModule D (built bs) f = .ok t ↔
      D.load? f ≠ none ∧ t = built (bs ++ [D.load? f]) := by
    intro bs f t
    rw [loadModule_ok_iff]
    cases D.load? f with
    | none => simp
    | some so => simp [built]
  have hstart : built [] = thiz := by simp [built]
  have hend : built ((moduleFiles root).map D.load?)
      = { thiz with moduleSos := thiz.moduleSos ++ modulesOf D root } := by
    simp [built, modulesOf, List.filterMap_map]
  have hcheck : confParseLoadmodule D thiz (xmlTreeFindFirst root (bytes "load_module"))
      = (moduleFiles root).foldlM (loadModule D) thiz >>= pure :=
    Lookup.loop_check hlists _ _ _ pure
  rw [hcheck, bind_pure, foldlM_ok_iff_map hbody hstart, hend]

/-- A location whose handler has a name, before its handler is made. -/
theorem handlerOf_eq {moduleSos : List (ModuleSoConf μ)} {vhostRoot : Option (List Byte)}
    {node handlerNode : XmlNode} {name : List Byte}
    (hnode : xmlTreeFindFirst node (bytes "handler") = some handlerNode)
    (hname : xmlTreeStrFirst handlerNode (bytes "name") = some name) :
    handlerOf moduleSos vhostRoot node
      = createHandler moduleSos (bareLocOf vhostRoot node) name
          (xmlTreeFindFirst handlerNode (bytes "handler_conf")) := by
  rw [createHandler_eq, handlerOf, hnode]
  show (xmlTreeStrFirst handlerNode (bytes "name") >>= _) = _
  rw [hname]
  rfl

theorem confParseLocation_ok_iff {thiz : ParsedConf μ} {vhost vhost' : VhostConf μ}
    {root : XmlNode} :
    confParseLocation thiz vhost root = .ok vhost' ↔
      LocationAccepted thiz.moduleSos vhost.root root ∧
        vhost' = { vhost with
          locs := vhost.locs ++ [locOf thiz.moduleSos vhost.root root] } := by
  unfold confParseLocation
  have hroot : (if xmlTreeStrFirst root (bytes "root") = none
        then ({ root := vhost.root } : VhostLocConf μ)
        else { root := xmlTreeStrFirst root (bytes "root") })
      = { root := rootOf vhost.root root } := by
    unfold rootOf
    cases xmlTreeStrFirst root (bytes "root") <;> rfl
  dsimp only
  rw [hroot]
  dsimp only
  -- the tests in the order of the source, each with the part of the acceptance that it decides
  by_cases hpat : xmlTreeStrFirst root (bytes "pattern") = none
  · rw [if_pos hpat]
    exact ⟨nofun, fun h => absurd hpat h.1.pattern⟩
  rw [if_neg hpat]
  cases hnode : xmlTreeFindFirst root (bytes "handler") with
  | none =>
      have hno : handlerOf thiz.moduleSos vhost.root root = none := by
        rw [handlerOf, hnode]
        rfl
      exact ⟨nofun, fun h => absurd hno h.1.handler⟩
  | some handlerNode =>
      dsimp only
      cases hname : xmlTreeStrFirst handlerNode (bytes "name") with
      | none =>
          have hno : handlerOf thiz.moduleSos vhost.root root = none := by
            rw [handlerOf, hnode]
            show (xmlTreeStrFirst handlerNode (bytes "name") >>= _) = _
            rw [hname]
            rfl
          exact ⟨nofun, fun h => absurd hno h.1.handler⟩
      | some name =>
          have hloc : (bareLocOf vhost.root root : VhostLocConf μ)
              = { root := rootOf vhost.root root,
                  patternStr := xmlTreeStrFirst root (bytes "pattern"),
                  handlerName := some name } := by
            rw [bareLocOf, handlerNameOf, hnode, Option.bind_some, hname]
          have hmade := @handlerOf_eq _ thiz.moduleSos vhost.root _ _ _ hnode hname
          rw [hloc] at hmade
          rw [locOf, hloc, hmade]
          dsimp only
          cases hcr : createHandler thiz.moduleSos _ name _ with
          | none =>
              rw [hcr] at hmade
              exact ⟨nofun, fun h => absurd hmade h.1.handler⟩
          | some m =>
              rw [hcr] at hmade
              have hacc : LocationAccepted thiz.moduleSos vhost.root root :=
                ⟨hpat, by rw [hmade]; nofun⟩
              show Except.ok _ = Except.ok vhost' ↔ _
              rw [Except.ok.injEq]
              exact ⟨fun h => ⟨hacc, h.symm⟩, fun h => h.2.symm⟩

theorem confParseVhost_ok_iff {thiz thiz' : ParsedConf μ} {root : XmlNode} :
    confParseVhost thiz root = .ok thiz' ↔
      VhostAccepted thiz.moduleSos thiz.root root ∧
        thiz' = { thiz with
          vhosts := thiz.vhosts ++ [vhostOf thiz.moduleSos thiz.root root] } := by
  by_cases hname : xmlTreeStrFirst root (bytes "name") = none
  · unfold confParseVhost
    rw [if_pos hname]
    exact ⟨nofun, fun h => absurd hname h.1.name⟩
  let built (bs : List (VhostLocConf μ)) : VhostConf μ :=
    { name := xmlTreeStrFirst root (bytes "name"), root := rootOf thiz.root root, locs := bs }
  have hstart : (if xmlTreeStrFirst root (bytes "root") = none
        then ({ name := xmlTreeStrFirst root (bytes "name"), root := thiz.root } : VhostConf μ)
        else { name := xmlTreeStrFirst root (bytes "name"),
               root := xmlTreeStrFirst root (bytes "root") })
      = built [] := by
    unfold built rootOf
    cases xmlTreeStrFirst root (bytes "root") <;> rfl
  -- the `do .. while` over the locations does nothing but fold over them
  have hcheck : confParseVhost thiz root
      = (root.elements (bytes "location")).foldlM (confParseLocation thiz) (built []) >>= fun v =>
          pure { thiz with vhosts := thiz.vhosts ++ [v] } := by
    unfold confParseVhost
    rw [if_neg hname]
    dsimp only
    rw [hstart]
    exact Lookup.loop_check (findLookup_lists root _) _ _ _
      fun v => pure { thiz with vhosts := thiz.vhosts ++ [v] }
  have hbody : ∀ bs node v, confParseLocation thiz (built bs) node = .ok v ↔
      LocationAccepted thiz.moduleSos (rootOf thiz.root root) node ∧
        v = built (bs ++ [locOf thiz.moduleSos (rootOf thiz.root root) node]) :=
    fun _ _ _ => confParseLocation_ok_iff
  have hloop : ∀ v, (root.elements (bytes "location")).foldlM (confParseLocation thiz) (built [])
        = .ok v ↔
      (∀ l ∈ root.elements (bytes "location"),
        LocationAccepted thiz.moduleSos (rootOf thiz.root root) l) ∧
      v = vhostOf thiz.moduleSos thiz.root root := fun _ => foldlM_ok_iff_map hbody rfl
  rw [hcheck]
  constructor
  · intro h
    cases hv : (root.elements (bytes "location")).foldlM (confParseLocation thiz) (built []) with
    | error e =>
        rw [hv] at h
        cases h
    | ok v =>
        rw [hv] at h
        obtain ⟨hlocs, rfl⟩ := (hloop v).mp hv
        exact ⟨⟨hname, hlocs⟩, (Except.ok.inj h).symm⟩
  · rintro ⟨hacc, rfl⟩
    rw [(hloop _).mpr ⟨hacc.locations, rfl⟩]
    rfl

/-- A tree without an error that is checked for is read as what it describes. -/
theorem confParseTree_ok_iff {D : Linker η μ} {tree : XmlNode} {thiz : ParsedConf μ} :
    confParseTree D tree = .ok thiz ↔ TreeAccepted D tree ∧ thiz = confOf D tree := by
  by_cases hroot : xmlTreeStrFirst tree (bytes "root") = none
  · unfold confParseTree
    dsimp only
    rw [if_pos (show (@confValues μ tree).root = none from hroot)]
    exact ⟨nofun, fun h => absurd hroot h.1.root⟩
  let loaded : ParsedConf μ := { confValues tree with moduleSos := modulesOf D tree }
  let built (bs : List (VhostConf μ)) : ParsedConf μ := { loaded with vhosts := bs }
  -- the modules are loaded first, and the hosts are folded over
  have hcheck : confParseTree D tree
      = confParseLoadmodule D (confValues tree) (xmlTreeFindFirst tree (bytes "load_module")) >>=
          fun thiz => (tree.elements (bytes "vhost")).foldlM confParseVhost thiz := by
    unfold confParseTree
    dsimp only
    rw [if_neg (show ¬ (@confValues μ tree).root = none from hroot)]
    congr 1
    funext t
    have h := Lookup.loop_check (findLookup_lists tree (bytes "vhost")) confParseVhost t
      (⟨"at least one vhost needed.", []⟩ : ConfExit) (pure (f := Except ConfExit))
    rw [bind_pure] at h
    exact h
  have hbody : ∀ bs node t, confParseVhost (built bs) node = .ok t ↔
      VhostAccepted (modulesOf D tree) (xmlTreeStrFirst tree (bytes "root")) node ∧
        t = built (bs ++ [vhostOf (modulesOf D tree) (xmlTreeStrFirst tree (bytes "root")) node]) :=
    fun _ _ _ => confParseVhost_ok_iff
  have hloop : (tree.elements (bytes "vhost")).foldlM confParseVhost loaded = .ok thiz ↔
      (∀ v ∈ tree.elements (bytes "vhost"),
        VhostAccepted (modulesOf D tree) (xmlTreeStrFirst tree (bytes "root")) v) ∧
      thiz = confOf D tree := foldlM_ok_iff_map hbody rfl
  rw [hcheck]
  constructor
  · intro h
    cases hm : confParseLoadmodule D (confValues tree)
        (xmlTreeFindFirst tree (bytes "load_module")) with
    | error e =>
        rw [hm] at h
        cases h
    | ok t =>
        rw [hm] at h
        obtain ⟨hmods, rfl⟩ := confParseLoadmodule_ok_iff.mp hm
        obtain ⟨hvhosts, hthiz⟩ := hloop.mp h
        exact ⟨⟨hroot, hmods, hvhosts⟩, hthiz⟩
  · rintro ⟨hacc, rfl⟩
    rw [confParseLoadmodule_ok_iff.mpr ⟨hacc.modules, rfl⟩]
    exact hloop.mpr ⟨hacc.vhosts, rfl⟩

/-! ## Usable configurations -/

/-- A location that a request can be given to. -/
structure VhostLocConf.Usable (loc : VhostLocConf μ) : Prop where
  root : loc.root ≠ none
  pattern : loc.patternStr ≠ none
  handler : loc.handler ≠ none

structure VhostConf.Usable (vhost : VhostConf μ) : Prop where
  name : vhost.name ≠ none
  root : vhost.root ≠ none
  locs_ne : vhost.locs ≠ []
  locs : ∀ l ∈ vhost.locs, l.Usable

/-- A configuration that the server can run with. -/
structure ParsedConf.Usable (thiz : ParsedConf μ) : Prop where
  modules_ne : thiz.moduleSos ≠ []
  vhosts_ne : thiz.vhosts ≠ []
  defaultVhost : thiz.defaultVhost = thiz.vhosts.head?
  vhosts : ∀ v ∈ thiz.vhosts, v.Usable

/-- A location of the configuration and its element. -/
structure LocOfElement (node : XmlNode) (loc : VhostLocConf μ) : Prop where
  root : ∀ s ∈ xmlTreeStrFirst node (bytes "root"), loc.root = some s
  pattern : loc.patternStr = xmlTreeStrFirst node (bytes "pattern")
  handlerName : loc.handlerName = handlerNameOf node

/-- A vhost of the configuration and its element: it has the locations of the element,
    each once, in their order. -/
structure VhostOfElement (node : XmlNode) (vhost : VhostConf μ) : Prop where
  name : vhost.name = xmlTreeStrFirst node (bytes "name")
  root : ∀ s ∈ xmlTreeStrFirst node (bytes "root"), vhost.root = some s
  locs : List.Forall₂ LocOfElement (node.elements (bytes "location")) vhost.locs

/-- `conf_parse` exits, or returns a usable configuration with the vhosts of the file,
    each once, in their order. -/
def ConfAnswer (D : Linker η μ) (tree : Option XmlNode) : Prop :=
  match confParse D tree with
  | .exit _ => True
  | .nullDeref => False
  | .ret thiz =>
      thiz.Usable ∧
        ∃ root, tree = some root ∧
          List.Forall₂ VhostOfElement (root.elements (bytes "vhost")) thiz.vhosts

/-- There is a vhost, and every vhost has a location. -/
def ListsAll (tree : XmlNode) : Prop :=
  tree.elements (bytes "vhost") ≠ [] ∧
    ∀ v ∈ tree.elements (bytes "vhost"), v.elements (bytes "location") ≠ []

/-! ## Order -/

theorem rootOf_some {inherited : Option (List Byte)} {node : XmlNode} :
    ∀ s ∈ xmlTreeStrFirst node (bytes "root"), rootOf inherited node = some s := by
  intro s hs
  rw [rootOf, Option.mem_def.mp hs]
  rfl

theorem locOf_element (moduleSos : List (ModuleSoConf μ)) (vhostRoot : Option (List Byte))
    (node : XmlNode) : LocOfElement node (locOf moduleSos vhostRoot node) :=
  ⟨rootOf_some, rfl, rfl⟩

theorem vhostOf_element (moduleSos : List (ModuleSoConf μ)) (confRoot : Option (List Byte))
    (node : XmlNode) : VhostOfElement node (vhostOf moduleSos confRoot node) where
  name := rfl
  root := rootOf_some
  locs := by
    apply List.forall₂_map_right_iff.mpr
    exact List.forall₂_same.mpr fun l _ => locOf_element _ _ l

/-! ## What is accepted is usable, but for the empty lists -/

theorem rootOf_ne {inherited : Option (List Byte)} (h : inherited ≠ none) (node : XmlNode) :
    rootOf inherited node ≠ none := by
  unfold rootOf
  cases xmlTreeStrFirst node (bytes "root") with
  | none => exact h
  | some s => nofun

theorem LocationAccepted.usable {moduleSos : List (ModuleSoConf μ)}
    {vhostRoot : Option (List Byte)} {node : XmlNode}
    (h : LocationAccepted moduleSos vhostRoot node) (hroot : vhostRoot ≠ none) :
    (locOf moduleSos vhostRoot node).Usable :=
  ⟨rootOf_ne hroot node, h.pattern, h.handler⟩

/-- A handler comes from a module. -/
theorem LocationAccepted.modules_ne {moduleSos : List (ModuleSoConf μ)}
    {vhostRoot : Option (List Byte)} {node : XmlNode}
    (h : LocationAccepted moduleSos vhostRoot node) : moduleSos ≠ [] := by
  rintro rfl
  apply h.handler
  unfold handlerOf
  cases xmlTreeFindFirst node (bytes "handler") with
  | none => rfl
  | some handlerNode =>
      show (xmlTreeStrFirst handlerNode (bytes "name") >>= _) = _
      cases xmlTreeStrFirst handlerNode (bytes "name") <;> rfl

theorem VhostAccepted.usable {moduleSos : List (ModuleSoConf μ)}
    {confRoot : Option (List Byte)} {node : XmlNode}
    (h : VhostAccepted moduleSos confRoot node) (hroot : confRoot ≠ none)
    (hlocs : node.elements (bytes "location") ≠ []) :
    (vhostOf moduleSos confRoot node).Usable where
  name := h.name
  root := rootOf_ne hroot node
  locs_ne := by
    show List.map _ _ ≠ []
    simpa using hlocs
  locs := by
    intro loc hloc
    obtain ⟨l, hl, rfl⟩ := List.mem_map.mp hloc
    exact (h.locations l hl).usable (rootOf_ne hroot node)

/-- A module is loaded if there is a location, whose handler it makes. -/
theorem TreeAccepted.usable {D : Linker η μ} {tree : XmlNode} (h : TreeAccepted D tree)
    (hlists : ListsAll tree) :
    ({ confOf D tree with defaultVhost := (confOf D tree).vhosts.head? } :
      ParsedConf μ).Usable where
  modules_ne := by
    obtain ⟨v, hv⟩ := List.exists_mem_of_ne_nil _ hlists.1
    obtain ⟨l, hl⟩ := List.exists_mem_of_ne_nil _ (hlists.2 v hv)
    exact ((h.vhosts v hv).locations l hl).modules_ne
  vhosts_ne := by
    show List.map _ _ ≠ []
    simpa using hlists.1
  defaultVhost := rfl
  vhosts := by
    intro vhost hvhost
    obtain ⟨v, hv, rfl⟩ := List.mem_map.mp hvhost
    exact (h.vhosts v hv).usable h.root (hlists.2 v hv)

theorem confOf_elements (D : Linker η μ) (tree : XmlNode) :
    List.Forall₂ VhostOfElement (tree.elements (bytes "vhost")) (confOf D tree).vhosts := by
  apply List.forall₂_map_right_iff.mpr
  exact List.forall₂_same.mpr fun v _ => vhostOf_element _ _ v

/-- Of a usable configuration no list is empty. -/
theorem listsAll_of_usable {D : Linker η μ} {tree : XmlNode} {default : Option (VhostConf μ)}
    (h : ({ confOf D tree with defaultVhost := default } : ParsedConf μ).Usable) :
    ListsAll tree := by
  constructor
  · intro hnone
    apply h.vhosts_ne
    show List.map _ _ = []
    rw [hnone, List.map_nil]
  · intro v hv hnone
    apply (h.vhosts _ (List.mem_map_of_mem hv)).locs_ne
    show List.map _ _ = []
    rw [hnone, List.map_nil]

/-- `conf_parse` answers with an exit or a usable configuration unless every check that
    can fire passes and the file has no vhost, or a vhost without a location. -/
theorem confParse_usable_iff (D : Linker η μ) (tree : Option XmlNode) :
    ConfAnswer D tree ↔ ∀ root, tree = some root → TreeAccepted D root → ListsAll root := by
  unfold ConfAnswer confParse
  cases hparse : confParseTree D tree with
  | error e =>
      apply iff_of_true trivial
      rintro root rfl hacc
      rw [confParseTree_ok_iff.mpr ⟨hacc, rfl⟩] at hparse
      cases hparse
  | ok thiz =>
      cases tree with
      | none => cases hparse
      | some root =>
          obtain ⟨hacc, rfl⟩ := confParseTree_ok_iff.mp hparse
          dsimp only
          cases hv : (confOf D root).vhosts.head? with
          | none =>
              -- the first vhost is the null pointer
              apply iff_of_false id
              intro h
              exact (h root rfl hacc).1 (List.map_eq_nil_iff.mp (List.head?_eq_none_iff.mp hv))
          | some v =>
              constructor
              · rintro ⟨husable, _⟩ root' hroot' _
                cases hroot'
                exact listsAll_of_usable husable
              · intro h
                have husable := hacc.usable (h root rfl hacc)
                rw [hv] at husable
                exact ⟨husable, root, rfl, confOf_elements D root⟩

/-! ## Files that are accepted -/

/-- `<name>text</name>`. -/
def leaf (name text : List Byte) : XmlNode := ⟨.normal name, [⟨.text text, []⟩]⟩

/-- A linker that finds the module `default` in any file. -/
def exampleLinker : Linker Unit Unit where
  dlopen _ := .ok ()
  dlsym _ := .ok ⟨bytes "default", fun _ _ => some ()⟩

/-- A vhost without a location is accepted, without a module at that; and a file without
    a vhost makes `conf_parse` read through a null pointer. -/
theorem not_confAnswer :
    ¬ ConfAnswer exampleLinker (some ⟨.normal (bytes "server"), [leaf (bytes "root") (bytes "/srv"),
        ⟨.normal (bytes "vhost"), [leaf (bytes "name") (bytes "localhost")]⟩]⟩) ∧
      ¬ ConfAnswer exampleLinker
        (some ⟨.normal (bytes "server"), [leaf (bytes "root") (bytes "/srv")]⟩) := by
  constructor
  · intro h
    exact h.1.modules_ne rfl
  · intro h
    exact h

end XwpServer
