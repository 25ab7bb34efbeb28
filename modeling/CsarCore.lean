import CsarCore.Proof.TokenMint.Isolation
import CsarCore.Proof.ReadCache.Hit
import CsarCore.Proof.Audit.Client
import CsarCore.Proof.Notify.Client
import CsarCore.Proof.HTTPServer.Server
import CsarCore.Proof.AMQPConfirm.Await
import CsarCore.Proof.Pgutil.Migrate
import CsarCore.Proof.S3Store.List
import CsarCore.Proof.Audit.Postgres
import CsarCore.Proof.S3Store.Format
import CsarCore.Proof.Logutil.Handler
import CsarCore.Proof.TokenMint.Backoff
import CsarCore.Proof.Authzconfig.Config
import CsarCore.Proof.Audit.Enqueue
import CsarCore.Proof.Audit.Metadata
import CsarCore.Proof.TokenMint.Egress
import CsarCore.Proof.TokenMint.Sweep
import CsarCore.Proof.ConfigSource.Resolve
import CsarCore.Proof.JsonRedact.Path
import CsarCore.Proof.JsonRedact.Stable
import CsarCore.Proof.JsonRedact.Text
import CsarCore.Proof.Jwtx.Curve
import CsarCore.Proof.Jwtx.Jwk
import CsarCore.Proof.Jwtx.Times
import CsarCore.Proof.Jwtx.Remote
import CsarCore.Proof.Email.Smtp
import CsarCore.Proof.Configutil.Alias
import CsarCore.Proof.S3Store.Stream
import CsarCore.Proof.HTTPMiddleware.Recorder
import CsarCore.Proof.StsClient.Token
import CsarCore.Proof.StsClient.Budget
import CsarCore.Proof.StsClient.Retry
import CsarCore.Proof.Ycloud.Iam
import CsarCore.Proof.Clientx.Exec
import CsarCore.Proof.Storage.Metadata
import CsarCore.Proof.Configutil.Env
import CsarCore.Proof.Configutil.Visits
import CsarCore.Proof.Configutil.Typed
import CsarCore.Proof.Httpx.Response
import CsarCore.Proof.Configutil.Duration
import CsarCore.Proof.Emailnorm.Emailnorm
