import Beez.Sandbox.Domains

/-! # The named groups, and what a harness needs of them -/

namespace Beez

/-- Parses every value, and drops the ones Beez cannot read. Only Beez's own group tables use
this. -/
def parseValid {ε α : Type} (parse : Text → Except ε α) (values : List String) : List α :=
  values.filterMap fun value => (parse value.toList).toOption

/-! ## Hosts -/

namespace DomainGroup

/-- Every group, in the order a set holds them. -/
def all : List DomainGroup :=
  [.anthropic, .openAi, .google, .openRouter, .bedrock, .vertex, .azureOpenAi, .mistral, .deepSeek,
    .xai, .groq, .ollama, .huggingFace, .claudeOptional, .claudeTelemetry, .github, .gitlab,
    .bitbucket, .npm, .pypi, .crates, .go, .rubygems, .maven, .nuget, .homebrew, .dockerHub,
    .containerRegistry, .hashicorp, .playwright]

theorem mem_all (group : DomainGroup) : group ∈ all := by
  cases group <;> decide

def domains : DomainGroup → List String
  | anthropic => ["api.anthropic.com", "platform.claude.com", "claude.ai"]
  | openAi => ["api.openai.com", "chatgpt.com", "auth.openai.com"]
  | google => ["generativelanguage.googleapis.com", "oauth2.googleapis.com"]
  | openRouter => ["openrouter.ai"]
  | bedrock => ["*.amazonaws.com"]
  | vertex => ["*.aiplatform.googleapis.com", "oauth2.googleapis.com"]
  | azureOpenAi => ["*.openai.azure.com", "login.microsoftonline.com"]
  | mistral => ["api.mistral.ai"]
  | deepSeek => ["api.deepseek.com"]
  | xai => ["api.x.ai"]
  | groq => ["api.groq.com"]
  | ollama => ["registry.ollama.ai", "ollama.com"]
  | huggingFace => ["huggingface.co", "cdn-lfs.huggingface.co", "cdn-lfs-us-1.huggingface.co"]
  | claudeOptional =>
    ["downloads.claude.ai", "code.claude.com", "raw.githubusercontent.com", "registry.npmjs.org",
      "storage.googleapis.com"]
  | claudeTelemetry => ["http-intake.logs.us5.datadoghq.com", "browser-intake-us5-datadoghq.com"]
  | github => ["github.com", "api.github.com", "codeload.github.com", "*.githubusercontent.com"]
  | gitlab => ["gitlab.com", "registry.gitlab.com"]
  | bitbucket => ["bitbucket.org", "api.bitbucket.org"]
  | npm => ["registry.npmjs.org"]
  | pypi => ["pypi.org", "files.pythonhosted.org"]
  | crates => ["crates.io", "index.crates.io", "static.crates.io", "static.rust-lang.org"]
  | go => ["proxy.golang.org", "sum.golang.org", "storage.googleapis.com"]
  | rubygems => ["rubygems.org", "index.rubygems.org"]
  | maven =>
    ["repo.maven.apache.org", "repo1.maven.org", "plugins.gradle.org", "services.gradle.org"]
  | nuget => ["api.nuget.org", "www.nuget.org"]
  | homebrew => ["formulae.brew.sh", "ghcr.io", "*.pkg.github.com"]
  | dockerHub =>
    ["registry-1.docker.io", "auth.docker.io", "index.docker.io",
      "production.cloudflare.docker.com"]
  | containerRegistry => ["ghcr.io", "*.pkg.github.com", "quay.io", "gcr.io", "mcr.microsoft.com"]
  | hashicorp =>
    ["releases.hashicorp.com", "registry.terraform.io", "checkpoint-api.hashicorp.com"]
  | playwright => ["cdn.playwright.dev", "playwright.azureedge.net", "storage.googleapis.com"]

/-- Host rules in the group. A rule that fails to parse is dropped. -/
def rules (group : DomainGroup) : List DomainRule := parseValid DomainRule.fromStr group.domains

/-- No rule of a group is dropped. -/
theorem length_rules (group : DomainGroup) : group.rules.length = group.domains.length := by
  cases group <;> decide +kernel

end DomainGroup

/-! ## Paths -/

inductive SandboxPathError where
  | empty | nul
deriving DecidableEq, Repr

/-- `value.parse::<SandboxPath>()`. -/
def SandboxPath.fromStr (value : Text) : Except SandboxPathError SandboxPath :=
  if value = [] then .error .empty
  else if Char.ofNat 0 ∈ value then .error .nul
  else .ok ⟨String.ofList value⟩

inductive PathGroup where
  | keys | cloud | logins | tokens | history | secrets | workspace | git | ci | editor | toolchain
  | harness | artifacts | claudeState | codexState | piState | ompState | nodeState | pythonState
  | rustState | goState | jvmState | rubyState | dotnetState | zigState | iacState
deriving DecidableEq, Repr

namespace PathGroup

def paths : PathGroup → List String
  | keys => ["~/.ssh", "~/.gnupg"]
  | cloud =>
    ["~/.aws", "~/.config/gcloud", "~/.azure", "~/.oci", "~/.databrickscfg",
      "~/.terraform.d/credentials.tfrc.json"]
  | logins => ["~/.kube", "~/.docker", "~/.netrc"]
  | tokens =>
    ["~/.git-credentials", "~/.config/gh", "~/.config/glab-cli", "~/.npmrc", "~/.pypirc",
      "~/.cargo/credentials.toml", "~/.gem/credentials", "~/.gradle/gradle.properties"]
  | history => ["~/.bash_history", "~/.zsh_history", "~/.local/share/fish/fish_history"]
  | secrets => ["~/Library/Keychains", "~/.password-store", "~/.config/op"]
  | workspace => [".", "/tmp"]
  | git => [".git/hooks", ".git/config", ".husky", ".pre-commit-config.yaml"]
  | ci => [".github/workflows", ".gitlab-ci.yml"]
  | editor => [".vscode", ".idea", ".devcontainer"]
  | toolchain => [".envrc", ".cargo/config.toml", ".npmrc", ".yarnrc.yml"]
  | harness => [".claude", ".mcp.json", ".codex", ".agents", ".pi", ".omp"]
  | artifacts => [".beez"]
  | claudeState => ["~/.claude", "~/.claude.json"]
  | codexState => ["~/.codex"]
  | piState => ["~/.pi"]
  | ompState => ["~/.omp"]
  | nodeState => ["~/.npm", "~/.cache", "~/.bun", "~/.local/share/pnpm"]
  | pythonState => ["~/.cache"]
  | rustState => ["~/.cargo", "~/.rustup"]
  | goState => ["~/go", "~/.cache"]
  | jvmState => ["~/.m2", "~/.gradle"]
  | rubyState => ["~/.gem", "~/.bundle"]
  | dotnetState => ["~/.nuget", "~/.dotnet"]
  | zigState => ["~/.cache/zig"]
  | iacState => ["~/.terraform.d"]

def sandboxPaths (group : PathGroup) : List SandboxPath :=
  parseValid SandboxPath.fromStr group.paths

/-- No path of a group is dropped. -/
theorem length_sandboxPaths (group : PathGroup) :
    group.sandboxPaths.length = group.paths.length := by
  cases group <;> decide +kernel

end PathGroup

/-! ## Harnesses -/

/-- What a harness needs from the sandbox to run at all. -/
structure HarnessProfile where
  requiredDomainGroups : List DomainGroup
  defaultDomainGroups : List DomainGroup
  statePaths : List SandboxPath
  environment : List (String × String)
deriving DecidableEq, Repr

/-- Pi and Omp pick the provider from their own configuration. -/
def multiProviderGroups : List DomainGroup := [.anthropic, .openAi, .google, .openRouter]

namespace HeadlessHarness

def stateGroup : HeadlessHarness → PathGroup
  | claude => .claudeState
  | codex => .codexState
  | pi => .piState
  | omp => .ompState

def environment : HeadlessHarness → List (String × String)
  -- Optional traffic must not retry against a closed network.
  | claude =>
    [("CLAUDE_CODE_DISABLE_NONESSENTIAL_TRAFFIC", "1"), ("DISABLE_AUTOUPDATER", "1"),
      ("ENABLE_CLAUDEAI_MCP_SERVERS", "false")]
  | codex | pi | omp => []

end HeadlessHarness

def HarnessProfile.forHarness (harness : HeadlessHarness) : HarnessProfile :=
  let (requiredDomainGroups, defaultDomainGroups) := match harness with
    | .claude => ([.anthropic], [])
    | .codex => ([.openAi], [])
    | .pi | .omp => ([], multiProviderGroups)
  { requiredDomainGroups, defaultDomainGroups
    statePaths := harness.stateGroup.sandboxPaths
    environment := harness.environment }

/-- Every harness reaches a provider, and can write its own state. -/
theorem HarnessProfile.forHarness_usable (harness : HeadlessHarness) :
    let profile := forHarness harness
    profile.requiredDomainGroups ++ profile.defaultDomainGroups ≠ [] ∧ profile.statePaths ≠ [] := by
  cases harness <;> decide

end Beez
