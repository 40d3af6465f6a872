import Minbif.Core.Config

/-! The configuration of minbif. -/
namespace Minbif

/-- `Minbif::add_server_block_common_params`: its item, and its section with TLS. -/
def securityItem : ConfigItem :=
  ⟨str "security", str "none/tls/starttls/starttls-mandatory", .string, str "none"⟩

def tlsSection : ConfigSection where
  label := str "tls"
  description := str "TLS information"
  type := .optional
  items := [
    ⟨str "cert_file", str "Server certificate file for TLS", .string, []⟩,
    ⟨str "crl_file", str "CA certificate file for TLS", .string, str " "⟩,
    ⟨str "key_file", str "Server key file for TLS", .string, []⟩,
    ⟨str "priority", str "Priority list for ciphers, exchange methods, macs and compression methods",
      .string, str "NORMAL"⟩,
    ⟨str "trust_file", str "CA certificate file for TLS", .string, str " "⟩]

def pathSection : ConfigSection where
  label := str "path"
  description := str "Path information"
  type := .normal
  items := [
    ⟨str "motd", str "Path to motd", .string, str " "⟩,
    ⟨str "users", str "Users directory", .string, []⟩]

def inetdSection (tls : Bool) : ConfigSection where
  label := str "inetd"
  description := str "Inetd information"
  type := .optional
  items := [securityItem]
  sections := if tls then [tlsSection] else []

def daemonSection (tls : Bool) : ConfigSection where
  label := str "daemon"
  description := str "Daemon information"
  type := .optional
  items := [
    ⟨str "background", str "Start minbif in background", .bool, str "true"⟩,
    ⟨str "bind", str "IP address to listen on", .string, []⟩,
    ⟨str "maxcon", str "Maximum simultaneous connections", .int 0 65535, str "0"⟩,
    ⟨str "port", str "Port to listen on", .int 1 65535, []⟩,
    securityItem]
  nameItem := some (str "port")
  sections := if tls then [tlsSection] else []

def operSection : ConfigSection where
  label := str "oper"
  description := str "Define an IRC operator"
  type := .multiple
  items := [
    ⟨str "email", str "IRC operator email address", .string, str "*@*"⟩,
    ⟨str "login", str "Nickname of IRC operator", .string, []⟩,
    ⟨str "password", str "IRC operator password", .string, []⟩]
  nameItem := some (str "login")

def ircSection (tls : Bool) : ConfigSection where
  label := str "irc"
  description := str "Server information"
  type := .normal
  items := [
    ⟨str "buddy_icons_url", str "URL to display in /WHOIS to get a buddy icon", .string, str " "⟩,
    ⟨str "hostname", str "Server hostname", .string, str " "⟩,
    ⟨str "password", str "Global server password", .string, str " "⟩,
    ⟨str "ping", str "Ping frequence (s)", .int 0 65535, str "60"⟩,
    ⟨str "type", str "Type of daemon", .int 0 2, str "0"⟩]
  sections := [daemonSection tls, inetdSection tls, operSection]

def aaaSection (pam : Bool) : ConfigSection where
  label := str "aaa"
  description := str "Authentication, Authorization and Accounting"
  type := .optional
  items :=
    (if pam then [⟨str "pam_setuid",
      str "Child process setuid with the pam user (needs root and pam auth)", .bool, str "false"⟩] else []) ++
    [⟨str "use_connection", str "Use connection information to authenticate/authorize users", .bool,
      str "false"⟩,
    ⟨str "use_local", str "Use local database to authenticate users", .bool, str "true"⟩] ++
    (if pam then [⟨str "use_pam", str "Use PAM mechanisms to authenticate/authorize users", .bool,
      str "false"⟩] else [])

def fileTransfersSection : ConfigSection where
  label := str "file_transfers"
  description := str "File transfers parameters"
  type := .optional
  items := [
    ⟨str "dcc", str "Send files to IRC user with DCC", .bool, str "true"⟩,
    ⟨str "dcc_own_ip", str "Force minbif to always send DCC requests from a particular IP address",
      .string, str " "⟩,
    ⟨str "enabled", str "Enable file transfers", .bool, str "true"⟩,
    ⟨str "port_range", str "Port range to listen on for DCC", .intrange 1024 65535, str "1024-65535"⟩]

def loggingSection : ConfigSection where
  label := str "logging"
  description := str "Log information"
  type := .normal
  items := [
    ⟨str "conv_logs", str "Enable conversation logging", .bool, str "false"⟩,
    ⟨str "level", str "Logging level", .string, []⟩,
    ⟨str "to_syslog", str "Log error and warnings to syslog", .bool, []⟩]

/-- The sections and items that `Minbif::Minbif` builds, in the order of `std::map`, with and
without HAVE_TLS and HAVE_PAM. -/
def minbifSchema (tls pam : Bool) : Schema where
  sections := [aaaSection pam, fileTransfersSection, ircSection tls, loggingSection, pathSection]
  valid := by cases tls <;> cases pam <;> decide +kernel

def minbifConfig (tls pam : Bool) : MyConfig where
  schema := minbifSchema tls pam
  value := fun _ _ => {}

end Minbif
