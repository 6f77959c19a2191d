import SafeNetwork.Types

/-!
# The node's configuration

`Config`, the node's command-line configuration, with the defaults of its derived `Default`;
`Config::merge`, which overwrites a config with the values given in another; and
`Config::new`, which validates the command line and merges it into the defaults. Reading
the command line is the argument `cmdLineArgs`; the deletion of old data that `Config::new`
starts ignores its own failure and changes no field, and is left out.

* `default_merge_keeps_all_but_skip`: the defaults merged with a command line are the command
  line, except `skip_auto_port_forwarding`, which `merge` never copies and leaves unset;
  `Config::new` returns that config when the command line sets one and only one of `first` and
  `network_contacts_file`, and the `Configuration` error of `validate` otherwise;
* `new_drops_skip_auto_port_forwarding`: so `sn_node --first --skip-auto-port-forwarding` runs
  with the flag unset, where the docstrings of `merge` and `new` and the note of the `smoke` test
  say that every command-line value is carried into the config.
-/

namespace SafeNetwork

/-- A path (`std::path::PathBuf`), as its text. -/
abbrev PathBuf := String

/-- A socket address (`std::net::SocketAddr`): the bytes of its IP address and its port. -/
structure SocketAddr where
  ip : List UInt8
  port : UInt16
  deriving DecidableEq, Repr

/-- The node's configuration (`Config`), one field per command-line argument. -/
structure Config where
  walletId : Option String
  rootDir : Option PathBuf
  verbose : UInt8
  completions : Option String
  logDir : Option PathBuf
  logsRetained : Nat
  logsMaxBytes : Nat
  logsMaxLines : Nat
  logsUncompressed : Nat
  update : Bool
  updateOnly : Bool
  jsonLogs : Bool
  resourceLogs : Bool
  clearData : Bool
  first : Bool
  networkContactsFile : Option PathBuf
  localAddr : Option SocketAddr
  skipAutoPortForwarding : Bool
  deriving DecidableEq, Repr

namespace Config

/-- `Config::default()`, as `#[derive(Default)]` builds it: no option set, every count zero
and every flag unset (the `default_value`s of the command line are not its). -/
def default : Config :=
  { walletId := none, rootDir := none, verbose := 0, completions := none, logDir := none,
    logsRetained := 0, logsMaxBytes := 0, logsMaxLines := 0, logsUncompressed := 0,
    update := false, updateOnly := false, jsonLogs := false, resourceLogs := false,
    clearData := false, first := false, networkContactsFile := none, localAddr := none,
    skipAutoPortForwarding := false }

/-- The step `merge` takes for an optional field: the other config's value when it has one,
else ours. -/
def overwriteIfSome {α : Type} (ours theirs : Option α) : Option α :=
  if theirs.isSome then theirs else ours

@[simp] theorem overwriteIfSome_none_left {α : Type} (theirs : Option α) :
    overwriteIfSome none theirs = theirs := by
  cases theirs <;> rfl

/-- `Config::merge`: overwrites `self` with the values of `config`, field by field. -/
def merge (self config : Config) : Config :=
  { self with
    walletId := overwriteIfSome self.walletId config.walletId
    rootDir := overwriteIfSome self.rootDir config.rootDir
    jsonLogs := config.jsonLogs
    resourceLogs := config.resourceLogs
    verbose := if config.verbose > 0 then config.verbose else self.verbose
    completions := overwriteIfSome self.completions config.completions
    logDir := overwriteIfSome self.logDir config.logDir
    logsRetained := config.logsRetained
    logsMaxBytes := config.logsMaxBytes
    logsMaxLines := config.logsMaxLines
    logsUncompressed := config.logsUncompressed
    update := config.update || self.update
    updateOnly := config.updateOnly || self.updateOnly
    clearData := config.clearData || self.clearData
    first := config.first || self.first
    networkContactsFile := overwriteIfSome self.networkContactsFile config.networkContactsFile
    localAddr := overwriteIfSome self.localAddr config.localAddr }

/-- The error `validate` returns. -/
def exclusionError : Error :=
  .configuration ("Either the --first or --network-contacts-file argument is " ++
    "required, and they are mutually exclusive. Please run the command again and use one " ++
    "or the other, but not both, of these arguments.")

/-- `Config::validate`: exactly one of `first` and `network_contacts_file` is set. -/
def validate (self : Config) : Except Error Unit :=
  if !(self.first ^^ self.networkContactsFile.isSome) then .error exclusionError
  else .ok ()

/-- `Config::new`: the command line validated, then merged into the defaults. -/
def new (cmdLineArgs : Config) : Except Error Config := do
  cmdLineArgs.validate
  pure (default.merge cmdLineArgs)

/-- A `verbose` level that is not positive is zero, so `merge` keeps the defaults' zero. -/
theorem eq_zero_of_not_pos {v : UInt8} (h : ¬ v > 0) : v = 0 :=
  UInt8.eq_of_toBitVec_eq (by simpa [UInt8.lt_def, BitVec.lt_def, BitVec.toNat_eq] using h)

/-- The defaults merged with `c` are `c`, but for `skip_auto_port_forwarding`, which
`merge` does not copy. -/
theorem default_merge (c : Config) : default.merge c = { c with skipAutoPortForwarding := false } := by
  have hverbose : (if c.verbose > 0 then c.verbose else 0) = c.verbose := by
    split_ifs with h
    · rfl
    · exact (eq_zero_of_not_pos h).symm
  simp only [merge, default, overwriteIfSome_none_left, Bool.or_false, hverbose]

/-- The defaults merged with a command line are the command line in every field but
`skip_auto_port_forwarding`, which is left unset. `Config::new` returns that config when the
command line sets one and only one of `first` and `network_contacts_file`, so the mutual
exclusion holds of the config the node uses, and the error of `validate` otherwise. -/
theorem default_merge_keeps_all_but_skip (c : Config) :
    default.merge c = { c with skipAutoPortForwarding := false } ∧
    new c = if (c.first ^^ c.networkContactsFile.isSome) then .ok { c with skipAutoPortForwarding := false }
      else .error exclusionError := by
  refine ⟨default_merge c, ?_⟩
  cases hx : (c.first ^^ c.networkContactsFile.isSome)
  · simp [new, validate, hx, bind, Except.bind]
  · rw [new, validate, hx, default_merge]
    rfl

/-- `sn_node --first --skip-auto-port-forwarding`: the config the node runs with has the flag
unset. -/
theorem new_drops_skip_auto_port_forwarding :
    default.merge { default with first := true, skipAutoPortForwarding := true } =
        { default with first := true } ∧
      new { default with first := true, skipAutoPortForwarding := true } = .ok { default with first := true } :=
  have h := default_merge_keeps_all_but_skip { default with first := true, skipAutoPortForwarding := true }
  ⟨h.1, h.2.trans rfl⟩

end Config

end SafeNetwork
